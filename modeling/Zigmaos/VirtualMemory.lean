import Mathlib.Logic.Relation
import Zigmaos.PageTable
import Zigmaos.RadixTree

/-!
# Page tables in memory

Here a page table is what the hardware sees: pages of memory, whose entries hold
the number of another page. Addresses are bytes. An entry of the upper levels
is followed when it is valid, whatever its permissions are.
-/
namespace Zigmaos.VirtualMemory
open Memory

def maxVirtualAddress : ℕ := 2 ^ 38
def physicalStopAddress : ℕ := 0x80000000 + 128 * 1024 * 1024

inductive Panic
  | integerOverflow | integerCast
  | walk | unmapNotAligned | unmapWalk | unmapNotMapped | unmapNotALeaf | unmapFreePage
  deriving DecidableEq

/-- The fields of an entry that are used; the others are zero. -/
structure PageTableEntry where
  valid : Bool
  permissions : PagePermissions
  user : Bool
  ppn : ℕ
  deriving DecidableEq

namespace PageTableEntry

def empty : PageTableEntry := ⟨false, .none, false, 0⟩

def isBranch (e : PageTableEntry) : Bool := e.permissions = .none

def asAddress (e : PageTableEntry) : ℕ := e.ppn * pageSize

/-- The number of the page has 44 bits. -/
def fromAddress (address : ℕ) : Except Panic PageTableEntry :=
  if address / pageSize < 2 ^ 44 then .ok { empty with ppn := address / pageSize }
  else .error .integerCast

/-- The fields in a word of memory. -/
def ofWord (w : ℕ) : PageTableEntry :=
  ⟨w.testBit 0, ⟨w.testBit 1, w.testBit 2, w.testBit 3⟩, w.testBit 4, w / 2 ^ 10 % 2 ^ 44⟩

end PageTableEntry

/-! ## Addresses -/

/-- `add`, and the other additions of the code. -/
def add (address offset : ℕ) : Except Panic ℕ :=
  if address + offset < 2 ^ 64 then .ok (address + offset) else .error .integerOverflow

def isOutOfRange (address : ℕ) : Bool := maxVirtualAddress ≤ address

def levelInt : Level → ℕ
  | .leaf => 0
  | .branch => 1
  | .root => 2

def pageIndex (address : ℕ) (level : Level) : Index :=
  ⟨address / 2 ^ (12 + 9 * levelInt level) % 512, Nat.mod_lt _ (by decide)⟩

def coveringPages (address len : ℕ) : Except Panic ℕ := do
  let last ← add address (len - 1)
  return last / pageSize - address / pageSize + 1

/-! ## Memory -/

/-- A place of an entry. -/
structure Slot where
  table : Page
  index : Index

structure Machine where
  memory : Page → Index → PageTableEntry
  allocator : Allocator
  /-- Where the linker has put the end of the kernel. -/
  kernelEndAddress : ℕ

namespace Machine

def entry (m : Machine) (slot : Slot) : PageTableEntry := m.memory slot.table slot.index

def setEntry (m : Machine) (slot : Slot) (e : PageTableEntry) : Machine :=
  { m with memory := RadixTree.write m.memory slot.table slot.index e }

/-- `isOutOfRange` of a kernel address. -/
def outOfRange (m : Machine) (page : Page) : Bool :=
  page * pageSize < m.kernelEndAddress || physicalStopAddress ≤ page * pageSize

/-- A page of `allocPage(.zeroed)`. -/
def allocPage (m : Machine) : Option Page × Machine :=
  match m.allocator.allocPage with
  | (some page, a) =>
    (some page, { m with
      memory := Function.update m.memory page (fun _ => .empty)
      allocator := a })
  | (none, a) => (none, { m with allocator := a })

/-- A freed page is filled with ones and linked into the list; `none` is `AddressOutOfRange`. -/
def freePage (m : Machine) (page : Page) : Option Machine :=
  if m.outOfRange page then none
  else
    let next := m.allocator.free.headD 0 * pageSize
    some { m with
      memory := Function.update m.memory page
        (fun i => if i = 0 then .ofWord next else .ofWord 0x0101010101010101)
      allocator := m.allocator.freePage page }

end Machine

/-! ## walk, map and unmap -/

inductive WalkError
  | invalidVirtualAddress | outOfMemory
  deriving DecidableEq

/-- The loop of `walk`, over the levels above the leaf. -/
def walkLoop (virtualAddress : ℕ) (doAlloc : Bool) :
    List Level → Page → Machine → Except Panic (Except WalkError Page × Machine)
  | [], currentPgTable, m => .ok (.ok currentPgTable, m)
  | level :: levels, currentPgTable, m =>
    let slot : Slot := ⟨currentPgTable, pageIndex virtualAddress level⟩
    if (m.entry slot).valid then
      walkLoop virtualAddress doAlloc levels (m.entry slot).ppn m
    else if doAlloc = false then .ok (.error .invalidVirtualAddress, m)
    else match m.allocPage with
      | (none, m) => .ok (.error .outOfMemory, m)
      | (some page, m) => do
        let pte ← PageTableEntry.fromAddress (page * pageSize)
        walkLoop virtualAddress doAlloc levels page (m.setEntry slot { pte with valid := true })

def walk (pgTable : Page) (virtualAddress : ℕ) (doAlloc : Bool) (m : Machine) :
    Except Panic (Except WalkError Slot × Machine) :=
  if isOutOfRange virtualAddress then .error .walk
  else do
    let (table, m) ← walkLoop virtualAddress doAlloc [.root, .branch] pgTable m
    return (table.map (fun table => ⟨table, pageIndex virtualAddress .leaf⟩), m)

inductive AddressSpace
  | kernel | user
  deriving DecidableEq

inductive MapError
  | cantMapZeroSize | alreadyMappedPage | walk (e : WalkError)
  deriving DecidableEq

/-- The loop of `map`, from page `i` on. -/
def mapPages (pgTable : Page) (virtualAddress physicalAddress : ℕ) (permissions : PagePermissions)
    (addressSpace : AddressSpace) (i : ℕ) :
    ℕ → Machine → Except Panic (Except MapError Unit × Machine)
  | 0, m => .ok (.ok (), m)
  | n + 1, m => do
    let (slot, m) ← walk pgTable (← add virtualAddress (i * pageSize)) true m
    match slot with
    | .error e => return (.error (.walk e), m)
    | .ok slot =>
      if (m.entry slot).valid then return (.error .alreadyMappedPage, m)
      else
        let pte ← PageTableEntry.fromAddress (← add physicalAddress (i * pageSize))
        mapPages pgTable virtualAddress physicalAddress permissions addressSpace (i + 1) n
          (m.setEntry slot
            { pte with permissions := permissions, user := addressSpace = .user, valid := true })

def map (pgTable : Page) (virtualAddress physicalAddress size : ℕ) (permissions : PagePermissions)
    (addressSpace : AddressSpace) (m : Machine) : Except Panic (Except MapError Unit × Machine) :=
  if size = 0 then .ok (.error .cantMapZeroSize, m)
  else do
    let pageCount ← coveringPages virtualAddress size
    mapPages pgTable virtualAddress physicalAddress permissions addressSpace 0 pageCount m

/-- The loop of `unmap`, from page `i` on. -/
def unmapPages (pgTable : Page) (startPage : ℕ) (doFree : Bool) (i : ℕ) :
    ℕ → Machine → Except Panic Machine
  | 0, m => .ok m
  | n + 1, m => do
    let (slot, m) ← walk pgTable (← add startPage (i * pageSize)) false m
    match slot with
    | .error _ => .error .unmapWalk
    | .ok slot =>
      if (m.entry slot).valid = false then .error .unmapNotMapped
      else if (m.entry slot).isBranch then .error .unmapNotALeaf
      else
        let freed := if doFree then m.freePage (m.entry slot).ppn else some m
        match freed with
        | none => .error .unmapFreePage
        | some m => unmapPages pgTable startPage doFree (i + 1) n (m.setEntry slot .empty)

def unmap (pgTable : Page) (startPage numPages : ℕ) (doFree : Bool) (m : Machine) :
    Except Panic Machine :=
  if startPage % pageSize ≠ 0 then .error .unmapNotAligned
  else unmapPages pgTable startPage doFree 0 numPages m

inductive TranslateError
  | outOfRange | walk (e : WalkError) | notValidPage | notUserPage
  deriving DecidableEq

def translateAddress (pgTable : Page) (virtualAddress : ℕ) (m : Machine) :
    Except Panic (Except TranslateError ℕ × Machine) :=
  if isOutOfRange virtualAddress then .ok (.error .outOfRange, m)
  else do
    let (slot, m) ← walk pgTable virtualAddress false m
    match slot with
    | .error e => return (.error (.walk e), m)
    | .ok slot =>
      if (m.entry slot).valid = false then return (.error .notValidPage, m)
      else if (m.entry slot).user = false then return (.error .notUserPage, m)
      else return (.ok (m.entry slot).asAddress, m)

end Zigmaos.VirtualMemory
