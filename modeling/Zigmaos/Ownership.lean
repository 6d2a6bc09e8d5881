import Zigmaos.SysFile
import Zigmaos.Typestate

/-!
# What a process owns inside a call

The typestate of the file system calls: the references and locks that the
running call holds, what it knows of the inodes behind them, how far the link
counts are from the directory entries it has written so far, and the changes it
has made. The conditions on operations come in groups; a mode says which of them
an application needs: an order on the locks, exact link counts, or a call that
runs alone.
-/
namespace Zigmaos.DirectoryContent

/-- Slot `j` is in use and does not hold "." or "..". -/
def Child (content : List UInt8) (j : ℕ) : Prop :=
  j < slotCount content ∧ (slot content j).inodeNumber ≠ 0 ∧ ¬IsDots (slot content j).nameSlice

instance (content : List UInt8) (j : ℕ) : Decidable (Child content j) :=
  inferInstanceAs (Decidable (_ ∧ _ ∧ _))

/-- The first two entries are "." and "..", and no other entry is. -/
structure DotForm (content : List UInt8) : Prop where
  aligned : Aligned content
  two : 2 ≤ slotCount content
  dot_live : (slot content 0).inodeNumber ≠ 0
  dot_name : (slot content 0).nameSlice = dot
  dotDot_live : (slot content 1).inodeNumber ≠ 0
  dotDot_name : (slot content 1).nameSlice = dotDot
  rest : ∀ j, 2 ≤ j → j < slotCount content → (slot content j).inodeNumber ≠ 0 →
    ¬IsDots (slot content j).nameSlice

end Zigmaos.DirectoryContent

namespace Zigmaos.FileSystem
open DirectoryContent

/-- What an entry of directory `dir` demands of the link count of `i`: one for
the inode it names, and one for `dir` where that inode is a subdirectory. -/
def entryDemand (types : InodeId → InodeType) (dir : InodeId) (e : DirectoryEntry)
    (i : InodeId) : ℕ :=
  if e.inodeNumber ≠ 0 ∧ ¬IsDots e.nameSlice then
    (if i = ⟨dir.device, e.inodeNumber⟩ then 1 else 0) +
      (if i = dir ∧ types ⟨dir.device, e.inodeNumber⟩ = .directory then 1 else 0)
  else 0

/-- The entry at slot `j`, or an empty one past the end. -/
def slotOrEmpty (content : List UInt8) (j : ℕ) : DirectoryEntry :=
  if j < slotCount content then slot content j else .empty

/-- The changes a call makes to what lasts beyond it. -/
inductive Effect
  | alloc (id : InodeId) (type : InodeType)
  | inode (id : InodeId) (diskInode : DiskInode)
  | truncate (id : InodeId)
  | entry (id : InodeId) (offset : ℕ) (content : List UInt8)
  | attempt (id : InodeId) (offset : ℕ)
  | files
  | process

/-- The inode that a call has just allocated and not entered in a directory;
it is `pristine` until the call locks it. -/
structure Fresh where
  id : InodeId
  type : InodeType
  pristine : Bool

structure Local where
  /-- References to inode table entries held by the call. -/
  count : Handle → ℕ
  id : Handle → InodeId
  /-- The type of an inode that the call has had locked. -/
  kind : Handle → Option InodeType
  held : Handle → Option DiskInode
  /-- The inode that `put` is freeing. -/
  dying : Option Handle
  fresh : Option Fresh
  /-- Link count minus demanding entries, as far as the call has changed them. -/
  pend : InodeId → ℤ
  fileRefs : FileIndex → ℕ
  newFile : Option FileIndex
  /-- A locked inode whose reference the call has moved to a file. -/
  lent : Option Handle
  /-- The descriptor whose file reference the call has taken over. -/
  taken : Option FileDescriptor
  cwdTaken : Bool
  /-- An inode whose reference the call has taken over from a file or the process. -/
  adopted : Option InodeId
  zombie : Bool
  inOperation : Bool
  log : List Effect

namespace Local

def Owns (L : Local) (i : InodeId) : Prop := ∃ h, 0 < L.count h ∧ L.id h = i

/-- Nothing is held between calls. -/
structure Idle (counted : Prop) (L : Local) : Prop where
  count : ∀ h, L.count h = 0
  held : ∀ h, L.held h = none
  dying : L.dying = none
  fresh : L.fresh = none
  pend : counted → ∀ i, L.pend i = 0
  fileRefs : ∀ f, L.fileRefs f = 0
  newFile : L.newFile = none
  lent : L.lent = none
  taken : L.taken = none
  cwdTaken : L.cwdTaken = L.zombie
  adopted : L.adopted = none
  inOperation : L.inOperation = false

def addRef (L : Local) (h : Handle) (i : InodeId) : Local :=
  { L with
    count := Function.update L.count h (L.count h + 1)
    id := Function.update L.id h i
    kind := Function.update L.kind h (if L.count h = 0 then none else L.kind h) }

/-- Dropping the last reference to a fresh inode gives it up. -/
def dropRef (L : Local) (h : Handle) : Local :=
  { L with
    count := Function.update L.count h (L.count h - 1)
    fresh := L.fresh.filter fun f => ¬(f.id = L.id h ∧ L.count h = 1) }

def acquire (L : Local) (h : Handle) (d : DiskInode) : Local :=
  { L with
    held := Function.update L.held h (some d)
    kind := Function.update L.kind h (some d.type)
    fresh := L.fresh.map fun f => if f.id = L.id h then { f with pristine := false } else f }

def unlock (L : Local) (h : Handle) : Local :=
  { L with held := Function.update L.held h none, lent := L.lent.filter (· ≠ h) }

/-- A new value of a locked inode. -/
def setHeld (L : Local) (h : Handle) (d : DiskInode) (e : Effect) : Local :=
  { L with held := Function.update L.held h (some d), log := L.log ++ [e] }

/-- `update` with the same type and content. -/
def setInode (L : Local) (h : Handle) (old d : DiskInode) : Local :=
  { L.setHeld h d (.inode (L.id h) d) with
    pend := Function.update L.pend (L.id h)
      (L.pend (L.id h) + (d.linkCount - old.linkCount : ℤ)) }

/-- The entry `e` at slot `j` of a directory whose content was `old`. -/
def enter (L : Local) (h : Handle) (old : DiskInode) (j : ℕ) (e : DirectoryEntry)
    (types : InodeId → InodeType) : Local :=
  let content := splice old.content (entrySize * j) e.toBytes
  { L.setHeld h { old with content := content } (.entry (L.id h) (entrySize * j) content) with
    pend := fun i => L.pend i + entryDemand types (L.id h) (slotOrEmpty old.content j) i
      - entryDemand types (L.id h) e i
    fresh := L.fresh.filter fun f =>
      ¬(e.inodeNumber ≠ 0 ∧ f.id = ⟨(L.id h).device, e.inodeNumber⟩ ∧ f.id ≠ L.id h) }

/-- The call has itself set the link count of the inode to zero. -/
def Unlinked (L : Local) (i : InodeId) : Prop := ∃ d, .inode i d ∈ L.log ∧ d.linkCount = 0

/-- The call may hold the last reference of the inode, which has no links. -/
def MayFree (L : Local) (i : InodeId) : Prop := L.Unlinked i ∨ L.adopted = some i

end Local

/-- Which conditions the operations have to meet, and the number of inodes on disk. -/
structure Mode where
  ninodes : ℕ
  ninodes_le : ninodes ≤ 2 ^ 32
  /-- Locks are taken from parent to child. -/
  orderly : Prop
  /-- Link counts match the directory entries. -/
  counted : Prop
  /-- No other process is inside a call. -/
  alone : Prop

namespace Mode
variable (M : Mode)

/-- The lock of `h` may be waited for while every lock of the call is held:
each belongs to a directory with an entry for `h`, or `h` is newer. -/
def Ordered (L : Local) (h : Handle) : Prop :=
  ∀ g d, L.held g = some d → d.type = .directory ∧
    ((∃ j, Child d.content j ∧ L.id h = ⟨(L.id g).device, (slot d.content j).inodeNumber⟩) ∨
      ∃ f, L.fresh = some f ∧ f.id = L.id h)

/-- An inode number that the call may look up: it is named by a directory that
the call has locked. -/
def Known (L : Local) (i : InodeId) : Prop :=
  i = .root ∨ (∃ f, L.fresh = some f ∧ f.id = i) ∨
    ∃ h d j, L.held h = some d ∧ d.type = .directory ∧ j < slotCount d.content ∧
      (slot d.content j).inodeNumber ≠ 0 ∧ i = ⟨(L.id h).device, (slot d.content j).inodeNumber⟩

/-- What a new entry of directory `h` needs, besides a reference to the inode `g` it names. -/
def Enterable (L : Local) (h g : Handle) (name : Name) : Prop :=
  (name = dot → L.id g = L.id h) ∧
  (IsDots name → ∃ f, L.fresh = some f ∧ f.id = L.id h) ∧
  (¬IsDots name → L.pend (L.id h) = 0 ∧ (L.kind g = some .directory →
    ∃ d, L.held g = some d ∧ DotForm d.content ∧
      (slot d.content 1).inodeNumber = (L.id h).number ∧ (∀ j, ¬Child d.content j)))

/-- What removing the entry at slot `j` of directory `h` needs. -/
def Removable (L : Local) (h : Handle) (d : DiskInode) (j : ℕ) : Prop :=
  Child d.content j ∧ ∃ g dg, g ≠ h ∧ L.held g = some dg ∧
    L.id g = ⟨(L.id h).device, (slot d.content j).inodeNumber⟩ ∧
    (dg.type = .directory → ∀ k, ¬Child dg.content k)

def pre : (o : Op) → Local → Prop
  | .beginOperation, L => L.inOperation = false
  | .endOperation, L => L.inOperation = true
  | .get i, L => 0 < i.number ∧ i.number < 2 ^ 32 ∧ (M.counted → Known L i)
  | .duplicateCurrentWorkingDirectory, L => L.cwdTaken = false
  | .lock h, L => 0 < L.count h ∧ L.dying = none ∧ (M.orderly → Ordered L h)
  | .release h, L => L.held h ≠ none ∧ L.dying = none
  | .putBegin h, L => 0 < L.count h ∧ L.dying = none ∧ (L.held h ≠ none → 2 ≤ L.count h) ∧
      L.lent = none ∧ (M.counted → L.count h = 1 → L.pend (L.id h) = 0)
  | .unlockRaw h, L => L.dying = some h ∧ ∃ d, L.held h = some d ∧ d.type = .free
  | .dropReference h, L => L.dying = some h ∧ L.held h = none
  | .identify h, L => 0 < L.count h
  | .diskInode h, L => L.held h ≠ none
  | .update h d, L => ∃ old, L.held h = some old ∧ d.content = old.content ∧
      ((L.dying = none ∧ d.type = old.type) ∨
        (L.dying = some h ∧ old.content = [] ∧ d = { old with type := .free }))
  | .truncate h, L => ∃ d, L.held h = some d ∧
      (L.dying = some h ∨ L.dying = none ∧ d.type = .file)
  | .writeEntry h offset e, L => L.dying = none ∧ ∃ d j, L.held h = some d ∧ d.type = .directory ∧
      offset = entrySize * j ∧ j ≤ slotCount d.content ∧ (j = slotCount d.content → Aligned d.content) ∧
      e.Fits ∧
      (e.inodeNumber ≠ 0 → (j < slotCount d.content → (slot d.content j).inodeNumber = 0) ∧
        ∃ g k, 0 < L.count g ∧ L.id g = ⟨(L.id h).device, e.inodeNumber⟩ ∧ L.kind g = some k ∧
          (¬IsDots e.nameSlice → k = .directory → ∃ f, L.fresh = some f ∧ f.id = L.id g) ∧
          (M.counted → Enterable L h g e.nameSlice)) ∧
      (e.inodeNumber = 0 → M.counted → Removable L h d j)
  | .ninodes, _ => True
  | .allocNumber i type, L => type ≠ .free ∧ L.fresh = none ∧ L.dying = none ∧
      1 ≤ i.number ∧ i.number < M.ninodes
  | .currentWorkingDirectory, L => L.cwdTaken = false
  | .setCurrentWorkingDirectory h, L => L.cwdTaken = true ∧ 0 < L.count h ∧ L.kind h ≠ none ∧
      L.fresh = none ∧ (M.counted → L.pend (L.id h) = 0) ∧ L.held h = none ∧ L.dying = none ∧
      L.zombie = false
  | .fileAlloc, L => L.newFile = none
  | .fileSet f data _ _, L => L.newFile = some f ∧ L.lent = none ∧ ∃ h, data.inode? = some h ∧
      0 < L.count h ∧ L.held h ≠ none ∧ L.fresh = none ∧
      (M.counted → L.pend (L.id h) = 0) ∧ L.dying = none
  | .fileDrop f, L => 0 < L.fileRefs f ∧ L.newFile = none ∧ L.lent = none
  | .fileDescriptorAllocate f, L => 0 < L.fileRefs f ∧ L.newFile = none ∧ L.taken = none
  | .openFile _, L => L.taken = none ∧ L.lent = none
  | .clearDescriptor fd, L => L.taken = some fd
  | .becomeZombie, L => L.cwdTaken = true
  | .panic _, _ => True

def post : (o : Op) → Local → o.Result → Local → Prop
  | .beginOperation, L, _, L' => L' = { L with inOperation := true, log := [] }
  | .endOperation, L, _, L' => L' = { L with inOperation := false, adopted := none }
  | .get i, L, h, L' => L' = L.addRef h i ∧ (0 < L.count h → L.id h = i)
  | .duplicateCurrentWorkingDirectory, L, h, L' => ∃ i, L' = L.addRef h i ∧
      (0 < L.count h → L.id h = i)
  | .lock h, L, _, L' => ∃ d, L' = L.acquire h d ∧ L.held h = none ∧ d.type ≠ .free ∧
      (∀ k, L.kind h = some k → d.type = k) ∧
      (M.counted ∨ M.alone → ∀ f, L.fresh = some f → f.id = L.id h → f.pristine = true →
        d = { DiskInode.empty with type := f.type })
  | .release h, L, _, L' => L' = L.unlock h
  | .putBegin h, L, r, L' =>
    match r with
    | true => ∃ d, L' = { L.acquire h d with
          dying := some h, fresh := (L.dropRef h).fresh } ∧ d.linkCount = 0 ∧
        L.count h = 1 ∧ L.held h = none ∧ (M.alone → L.MayFree (L.id h))
    | false => L' = L.dropRef h ∧ (M.alone → ∀ f, L.fresh = some f → f.id = L.id h →
        L.count h = 1 → f.pristine = false → ¬L.Unlinked (L.id h))
  | .unlockRaw h, L, _, L' =>
    L' = { L.unlock h with kind := Function.update L.kind h none }
  | .dropReference h, L, _, L' => L' = { L.dropRef h with dying := none }
  | .identify h, L, r, L' => r = L.id h ∧ L' = L
  | .diskInode h, L, r, L' => L.held h = some r ∧ L' = L
  | .update h d, L, _, L' => ∃ old, L.held h = some old ∧ L' = L.setInode h old d ∧
      (M.counted → old.linkCount = 65535 → d.linkCount ≠ 0)
  | .truncate h, L, _, L' => ∃ d, L.held h = some d ∧
      L' = L.setHeld h { d with content := [] } (.truncate (L.id h))
  | .writeEntry h offset e, L, r, L' =>
    match r with
    | .error _ => L' = L
    | .ok n => ∃ d j, L.held h = some d ∧ offset = entrySize * j ∧
      ((n = entrySize ∧ ∃ types : InodeId → InodeType,
          (∀ g k, 0 < L.count g → L.kind g = some k → types (L.id g) = k) ∧
          L' = L.enter h d j e types) ∨
        (n = 0 ∧ slotCount d.content ≤ j ∧
          L' = L.setHeld h d (.attempt (L.id h) offset)))
  | .ninodes, L, r, L' => r = M.ninodes ∧ L' = L
  | .allocNumber i type, L, r, L' =>
    match r with
    | true => L' = { L with fresh := some ⟨i, type, true⟩, log := L.log ++ [.alloc i type] }
    | false => L' = L
  | .currentWorkingDirectory, L, h, L' => ∃ i,
      L' = { L.addRef h i with cwdTaken := true, adopted := some i } ∧
      (0 < L.count h → L.id h = i)
  | .setCurrentWorkingDirectory h, L, _, L' =>
    L' = { L.dropRef h with cwdTaken := false, log := L.log ++ [.process] }
  | .fileAlloc, L, r, L' =>
    match r with
    | some f => L' = { L with
        newFile := some f
        fileRefs := Function.update L.fileRefs f (L.fileRefs f + 1)
        log := L.log ++ [.files] }
    | none => L' = L
  | .fileSet _ data _ _, L, _, L' => ∃ h, data.inode? = some h ∧
      L' = { L.dropRef h with newFile := none, lent := some h, log := L.log ++ [.files] }
  | .fileDrop f, L, r, L' => ∃ L₁, L₁ = { L with
        fileRefs := Function.update L.fileRefs f (L.fileRefs f - 1), log := L.log ++ [.files] } ∧
      (r.bind FileData.inode? = none ∧ L' = L₁ ∨
        ∃ h i, r.bind FileData.inode? = some h ∧ L' = { L₁.addRef h i with adopted := some i } ∧
          (0 < L.count h → L.id h = i))
  | .fileDescriptorAllocate f, L, r, L' => r ≠ none ∧
      L' = { L with
        fileRefs := Function.update L.fileRefs f (L.fileRefs f - 1), log := L.log ++ [.process] }
  | .openFile fd, L, r, L' =>
    match r with
    | some f => L' = { L with
        taken := some fd, fileRefs := Function.update L.fileRefs f (L.fileRefs f + 1) }
    | none => L' = L
  | .clearDescriptor _, L, _, L' => L' = { L with taken := none, log := L.log ++ [.process] }
  | .becomeZombie, L, _, L' => L' = { L with zombie := true, log := L.log ++ [.process] }
  | .panic _, _, _, _ => False

/-- What holds of the typestate of every process at every time. -/
structure Fact (L : Local) : Prop where
  number : ∀ h, 0 < L.count h → 0 < (L.id h).number ∧ (L.id h).number < 2 ^ 32
  unique : ∀ h g, 0 < L.count h → 0 < L.count g → L.id h = L.id g → h = g
  held_owned : ∀ h, L.held h ≠ none → 0 < L.count h ∨ L.lent = some h
  held_kind : ∀ h d, L.held h = some d → d.type = .free ∨ L.kind h = some d.type
  held_free : ∀ h d, L.held h = some d → d.type = .free → L.dying = some h
  pend_le : M.counted → ∀ h d, L.held h = some d → L.pend (L.id h) ≤ d.linkCount
  dotForm : M.counted → ∀ h d, L.held h = some d → d.type = .directory →
    (∀ f, L.fresh = some f → f.id ≠ L.id h) → L.dying ≠ some h → DotForm d.content

/-- The typestate of the file system calls. -/
def typestate : Typestate interface Local := ⟨M.Fact, M.pre, M.post⟩

end Mode

end Zigmaos.FileSystem
