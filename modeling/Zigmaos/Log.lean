import Zigmaos.AtomicWrites
import Zigmaos.DiskBlock

/-!
# The redo log: header, commit and recovery

The part of `log.zig` that moves blocks: `Header.copyFrom`, `installTransaction`,
`readHead`, `writeHead`, `writeLog`, `commit` and `recoverFromLog`, over a disk
and the buffers above it. A machine records every `Buffer.write` it issues, so
the disk after a stop is the old disk with a prefix of the issued writes.

Buffers nobody pins may be recycled at any request for a buffer; which ones go
is left to an arbitrary `recycler`, so the results hold for every replacement
order of the cache.
-/
namespace Zigmaos.Log
open AtomicWrites

abbrev Disk := ℕ → Block

/-- The log header. Entries from `length` on are stale. -/
structure Header where
  length : ℕ
  block : ℕ → ℕ

namespace Header

/-- The typed view `castData(Header)` of a block. -/
def ofBlock (b : Block) : Header :=
  ⟨b.readField 0 4, fun i => b.readField (4 * (i + 1)) 4⟩

/-- One assignment `destination.block[index] = source.block[index]`. -/
def copyEntry (source destination : Header) (index : ℕ) : Header :=
  { destination with block := Function.update destination.block index (source.block index) }

def copyFrom (destination source : Header) : Header :=
  (List.range source.length).foldl (copyEntry source) { destination with length := source.length }

/-- Assign entry `index` of the header that a block holds. -/
def storeEntry (source : Header) (b : Block) (index : ℕ) : Block :=
  b.writeField (4 * (index + 1)) 4 (source.block index)

/-- `copyFrom` with the destination in a buffer, as `writeHead` calls it. -/
def copyToBlock (source : Header) (b : Block) : Block :=
  (List.range source.length).foldl (storeEntry source) (b.writeField 0 4 source.length)

theorem copyFrom_fold (source h : Header) (n : ℕ) :
    (List.range n).foldl (copyEntry source) h =
      ⟨h.length, fun i => if i < n then source.block i else h.block i⟩ := by
  induction n with
  | zero => simp
  | succ n ih =>
    rw [List.range_succ, List.foldl_append, ih]
    simp only [List.foldl_cons, List.foldl_nil, copyEntry, Header.mk.injEq, true_and]
    funext i
    by_cases hi : i = n
    · subst hi; simp
    · rw [Function.update_of_ne hi]
      simp only [show i < n + 1 ↔ i < n by omega]

@[simp] theorem copyFrom_length (destination source : Header) :
    (destination.copyFrom source).length = source.length := by
  simp [copyFrom, copyFrom_fold]

theorem copyFrom_block (destination source : Header) (i : ℕ) (hi : i < source.length) :
    (destination.copyFrom source).block i = source.block i := by
  simp [copyFrom, copyFrom_fold, hi]

/-- Storing entries leaves every field of the block outside them alone. -/
theorem readField_storeEntries (source : Header) (b : Block) (n off width : ℕ)
    (hoff : off + width ≤ blockSize) (hd : off + width ≤ 4 ∨ 4 * (n + 1) ≤ off) :
    ((List.range n).foldl (storeEntry source) b).readField off width = b.readField off width := by
  induction n with
  | zero => rfl
  | succ n ih =>
    rw [List.range_succ, List.foldl_append]
    simp only [List.foldl_cons, List.foldl_nil, storeEntry]
    rw [Block.readField_writeField_disjoint _ _ _ _ _ _ hoff (by omega)]
    exact ih (by omega)

theorem readField_storeEntries_self (source : Header) (b : Block) (n i : ℕ) (hi : i < n)
    (hn : 4 * (n + 1) ≤ blockSize) :
    ((List.range n).foldl (storeEntry source) b).readField (4 * (i + 1)) 4 =
      source.block i % 2 ^ 32 := by
  induction n with
  | zero => omega
  | succ n ih =>
    rw [List.range_succ, List.foldl_append]
    simp only [List.foldl_cons, List.foldl_nil, storeEntry]
    by_cases hin : i = n
    · subst hin
      rw [Block.readField_writeField _ _ _ _ (by omega)]
      norm_num
    · rw [Block.readField_writeField_disjoint _ _ _ _ _ _ (by omega) (by omega)]
      exact ih (by omega) (by omega)

theorem ofBlock_copyToBlock_length (h : Header) (b : Block) (hn : h.length ≤ logSize) :
    (ofBlock (h.copyToBlock b)).length = h.length := by
  simp only [logSize, maxNumOperationBlocks] at hn
  simp only [ofBlock, copyToBlock]
  rw [readField_storeEntries _ _ _ _ _ (by norm_num [blockSize]) (by omega),
    Block.readField_writeField _ _ _ _ (by norm_num [blockSize]), Nat.mod_eq_of_lt]
  omega

theorem ofBlock_copyToBlock_block (h : Header) (b : Block) (hn : h.length ≤ logSize)
    (i : ℕ) (hi : i < h.length) (h32 : h.block i < 2 ^ 32) :
    (ofBlock (h.copyToBlock b)).block i = h.block i := by
  simp only [logSize, maxNumOperationBlocks] at hn
  simp only [ofBlock, copyToBlock]
  rw [readField_storeEntries_self _ _ _ _ hi (by simp only [blockSize]; omega),
    Nat.mod_eq_of_lt h32]

end Header

/-- The machine while it runs log code: disk, buffers, the log's own fields, and
the writes issued so far. `pins` counts the references that `log.write` took. -/
structure Machine where
  disk : Disk
  cached : ℕ → Option Block
  pins : ℕ → ℕ
  recycler : ℕ → ℕ → Bool
  requests : ℕ
  start : ℕ
  size : ℕ
  header : Header
  issued : List (Write ℕ Block)

namespace Machine

/-- What `Buffer.read` of block `b` returns. -/
def view (m : Machine) (b : ℕ) : Block := (m.cached b).getD (m.disk b)

/-- `getBuffer`: some unpinned buffers are recycled, then block `b` is read from
the disk unless a buffer holds it. -/
def getBuffer (m : Machine) (b : ℕ) : Machine :=
  let kept : ℕ → Option Block := fun c =>
    if m.recycler m.requests c ∧ m.pins c = 0 ∧ c ≠ b then none else m.cached c
  { m with
    requests := m.requests + 1
    cached := Function.update kept b (some ((m.cached b).getD (m.disk b))) }

/-- Change the data of the buffer that holds block `b`. -/
def setData (m : Machine) (b : ℕ) (data : Block) : Machine :=
  { m with cached := Function.update m.cached b (some data) }

/-- `Buffer.write`. -/
def write (m : Machine) (b : ℕ) : Machine :=
  { m with
    disk := Function.update m.disk b (m.view b)
    issued := m.issued ++ [(b, m.view b)] }

def unpin (m : Machine) (b : ℕ) : Machine :=
  { m with pins := Function.update m.pins b (m.pins b - 1) }

/-- One iteration of the loop of `installTransaction`. -/
def installBlock (isRecovering : Bool) (m : Machine) (tail : ℕ) : Machine :=
  let logBlock := m.start + tail + 1
  let home := m.header.block tail
  let m := (m.getBuffer logBlock).getBuffer home
  let m := (m.setData home (m.view logBlock)).write home
  if isRecovering then m else m.unpin home

def installTransaction (m : Machine) (isRecovering : Bool) : Machine :=
  (List.range m.header.length).foldl (installBlock isRecovering) m

def readHead (m : Machine) : Machine :=
  let m := m.getBuffer m.start
  { m with header := m.header.copyFrom (Header.ofBlock (m.view m.start)) }

def writeHead (m : Machine) : Machine :=
  let m := m.getBuffer m.start
  (m.setData m.start (m.header.copyToBlock (m.view m.start))).write m.start

/-- `log.header.length = 0`. -/
def clearLength (m : Machine) : Machine := { m with header := { m.header with length := 0 } }

def recoverFromLog (m : Machine) : Machine :=
  ((m.readHead.installTransaction true).clearLength).writeHead

/-- One iteration of the loop of `writeLog`. -/
def writeLogBlock (m : Machine) (tail : ℕ) : Machine :=
  let destination := m.start + tail + 1
  let source := m.header.block tail
  let m := (m.getBuffer destination).getBuffer source
  (m.setData destination (m.view source)).write destination

def writeLog (m : Machine) : Machine :=
  (List.range m.header.length).foldl writeLogBlock m

/-- `commit` up to and including its first `writeHead`. -/
def commitHead (m : Machine) : Machine := m.writeLog.writeHead

def commit (m : Machine) : Machine :=
  if m.header.length > 0 then
    ((m.commitHead.installTransaction false).clearLength).writeHead
  else m

end Machine

/-- A machine that has just started: no buffer is valid and the in-memory header
holds whatever was in memory. -/
structure Boot where
  memory : Header
  recycler : ℕ → ℕ → Bool

def Boot.machine (boot : Boot) (start size : ℕ) (d : Disk) : Machine :=
  ⟨d, fun _ => none, fun _ => 0, boot.recycler, 0, start, size, boot.memory, []⟩

/-- The writes one complete run of `recoverFromLog` issues on disk `d`. -/
def recoveryWrites (boot : Boot) (start size : ℕ) (d : Disk) : List (Write ℕ Block) :=
  (boot.machine start size d).recoverFromLog.issued

/-- Recovery runs that stop after some number of their writes, each followed by
the next one, and at last one that completes. -/
def recoverAll (start size : ℕ) (stopped : List (Boot × ℕ)) (last : Boot) (d : Disk) : Disk :=
  let d := stopped.foldl (fun d r => apply d ((recoveryWrites r.1 start size d).take r.2)) d
  apply d (recoveryWrites last start size d)

/-- The disk when the machine stops after `k` of the block writes of `commit`. -/
def stoppedCommit (m : Machine) (k : ℕ) : Disk := apply m.disk (m.commit.issued.take k)

end Zigmaos.Log
