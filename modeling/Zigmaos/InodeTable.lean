import Zigmaos.FileSystem
import Zigmaos.Transition
import Mathlib.Algebra.BigOperators.Ring.Finset
import Mathlib.Data.Fintype.BigOperators

/-!
# The inode table under concurrent use

Any number of processes call the functions of `inode.zig` on the inode table. A
step is a stretch under the lock of the table or of a buffer, or one that only
touches what the process has locked; `put` and `alloc` take several steps. The
references that each process holds are kept beside the table.
-/
namespace Zigmaos.InodeTable
open FileSystem Finset

/-- Where a process is inside `put` or `alloc`. -/
inductive Phase
  | running
  /-- `put` has found the last reference to an inode without links and locked it. -/
  | decided (inode : Handle)
  /-- The inode has been marked free on disk. -/
  | marked (inode : Handle)
  /-- The lock of the inode has been released, the reference not yet dropped. -/
  | unlocked (inode : Handle)
  /-- `alloc` has marked the number as used and not yet called `get`. -/
  | allocated (id : InodeId)
  deriving DecidableEq

structure State (π : Type) where
  kernel : Kernel π
  /-- The references that each process holds. -/
  refs : π → Handle → ℕ
  phase : π → Phase
  /-- The allocated inodes whose link count has fallen to zero. -/
  unlinked : InodeId → Bool

inductive Event (π : Type)
  | get (p : π) (id : InodeId)
  | duplicate (p : π) (inode : Handle)
  | lock (p : π) (inode : Handle)
  | release (p : π) (inode : Handle)
  /-- Assign `link_count` and call `update`. -/
  | update (p : π) (inode : Handle) (linkCount : ℕ)
  | put (p : π) (inode : Handle)
  /-- A turn of the loop of `alloc` that finds the number free. -/
  | alloc (p : π) (id : InodeId) (type : InodeType)
  /-- The next step of the `put` or `alloc` the process is in. -/
  | step (p : π)

section
variable {π : Type} [DecidableEq π]

def addRef (refs : π → Handle → ℕ) (p : π) (h : Handle) : π → Handle → ℕ :=
  fun q g => refs q g + if q = p ∧ g = h then 1 else 0

def dropRef (refs : π → Handle → ℕ) (p : π) (h : Handle) : π → Handle → ℕ :=
  fun q g => refs q g - if q = p ∧ g = h then 1 else 0

def State.setPhase (s : State π) (p : π) (f : Phase) : State π :=
  { s with phase := Function.update s.phase p f }

def step (s : State π) : Event π → Option (State π)
  | .get p id =>
    if s.phase p = .running ∧ 0 < (s.kernel.disk id).linkCount then
      match s.kernel.get id with
      | .done h k => some { s with kernel := k, refs := addRef s.refs p h }
      | _ => none
    else none
  | .duplicate p h =>
    if s.phase p = .running ∧ 0 < s.refs p h then
      some { s with
        kernel := s.kernel.setEntry h
          { s.kernel.table h with referenceCount := (s.kernel.table h).referenceCount + 1 }
        refs := addRef s.refs p h }
    else none
  | .lock p h =>
    if s.phase p = .running ∧ 0 < s.refs p h then
      match s.kernel.lock p h with
      | .done _ k => some { s with kernel := k }
      | _ => none
    else none
  | .release p h =>
    if s.phase p = .running then
      match s.kernel.release p h with
      | .done _ k => some { s with kernel := k }
      | _ => none
    else none
  | .update p h linkCount =>
    if s.phase p = .running ∧ (s.kernel.table h).holder = some p then
      let e := s.kernel.table h
      some { s with
        kernel := s.kernel.store h { e.diskInode with linkCount := linkCount }
        unlinked := Function.update s.unlinked e.id
          (linkCount = 0 && (s.unlinked e.id || 0 < e.diskInode.linkCount)) }
    else none
  | .put p h =>
    if s.phase p = .running ∧ 0 < s.refs p h ∧
        ((s.kernel.table h).holder = some p → 2 ≤ s.refs p h) then
      match s.kernel.putBegin p h with
      | .done true k => some { s.setPhase p (.decided h) with kernel := k }
      | .done false k => some { s with kernel := k, refs := dropRef s.refs p h }
      | _ => none
    else none
  | .alloc p id type =>
    if s.phase p = .running ∧ type ≠ .free ∧ (s.kernel.disk id).type = .free then
      some { s.setPhase p (.allocated id) with
        kernel := { s.kernel with
          disk := Function.update s.kernel.disk id { DiskInode.empty with type := type } }
        unlinked := Function.update s.unlinked id false }
    else none
  | .step p =>
    match s.phase p with
    | .running => none
    | .decided h =>
      let e := s.kernel.table h
      some { s.setPhase p (.marked h) with
        kernel := s.kernel.store h { e.diskInode with content := [], type := .free }
        unlinked := Function.update s.unlinked e.id false }
    | .marked h =>
      some { s.setPhase p (.unlocked h) with
        kernel := s.kernel.setEntry h
          { s.kernel.table h with isValid := false, holder := none } }
    | .unlocked h =>
      some { s.setPhase p .running with
        kernel := s.kernel.setEntry h { s.kernel.table h with
          referenceCount := sub32 (s.kernel.table h).referenceCount 1 }
        refs := dropRef s.refs p h }
    | .allocated id =>
      match s.kernel.get id with
      | .done h k => some { s.setPhase p .running with kernel := k, refs := addRef s.refs p h }
      | _ => none

/-- No inode is referenced, and the numbers that are free have no links. -/
structure Initial (s : State π) : Prop where
  table : ∀ h, (s.kernel.table h).referenceCount = 0 ∧ (s.kernel.table h).holder = none
  refs : ∀ p h, s.refs p h = 0
  phase : ∀ p, s.phase p = .running
  unlinked : ∀ id, s.unlinked id = false
  free : ∀ id, (s.kernel.disk id).type = .free → (s.kernel.disk id).linkCount = 0

end

end Zigmaos.InodeTable
