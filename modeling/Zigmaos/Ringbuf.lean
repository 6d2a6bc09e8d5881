import Zigmaos.Boundary
import Zigmaos.DiskBlock
import Zigmaos.LittleEndian
import Zigmaos.ProcessMemory

/-!
# Ring buffers

The table of `ringbuf.zig` and its system call. A ring buffer has all its pages
or none. Mapped addresses are virtual pages, and zero is no address. The table is
locked during a call, so a call is one step.
-/
namespace Zigmaos.RingbufManager
open Memory

abbrev ringbufSize : ℕ := 16
abbrev maxRingbufs : ℕ := 10
def maxNameLen : ℕ := 16

inductive RingbufError
  | alreadyActive | alreadyIsOwner | alreadyTwoOwners | badNameLength | outOfMemory
  | noFreeRingbuf | mapPagesFailed | copyOutFailed | copyInFailed | noAddrGiven | nameNotFound
  | notOwner | badAddr | alreadyInactive
  deriving DecidableEq

inductive Panic
  | memory (p : Memory.Panic)
  | orphanedFoundByName
  | freeHasOwners
  | bufPageIsNull
  | bookPageIsNull
  | bookPageIsAlreadyNull
  | disowningWithoutVbuf
  | disowningWithoutVbook
  | hasOwners
  deriving DecidableEq

variable {π : Type} [DecidableEq π]

structure Owner (π : Type) where
  proc : Option π
  vbuf : ℕ
  vbook : ℕ

def Owner.empty : Owner π := ⟨none, 0, 0⟩

/-- `buf_pages` and `book_page`. -/
structure RingPages where
  buf : List Page
  book : Page

structure Ringbuf (π : Type) where
  refcount : ℕ
  owners : Fin 2 → Owner π
  nameBuf : List UInt8
  pages : Option RingPages

/-- `Ringbuf{}` -/
def Ringbuf.empty : Ringbuf π := ⟨0, fun _ => .empty, List.replicate maxNameLen 0, none⟩

structure Process where
  pageTable : PageTable
  ownedRingbufsCount : ℕ
  topFreeVirtualPage : ℕ

structure State (π : Type) where
  memory : PhysicalMemory
  allocator : Allocator
  ringbufs : Fin maxRingbufs → Ringbuf π
  processes : π → Process

/-- The loop of `activate`: the pages it gets. -/
def allocBufPages (a : Allocator) : ℕ → List Page × Allocator
  | 0 => ([], a)
  | n + 1 =>
    match a.allocPage with
    | (none, a) => ([], a)
    | (some page, a) =>
      let rest := allocBufPages a n
      (page :: rest.1, rest.2)

namespace Ringbuf

def writeName (rb : Ringbuf π) (name : List UInt8) : Ringbuf π :=
  { rb with nameBuf := name ++ rb.nameBuf.drop name.length }

/-- The name up to its terminator. -/
def name (rb : Ringbuf π) : List UInt8 := rb.nameBuf.takeWhile (· ≠ 0)

/-- The owner that the process is. -/
def ownerOf (rb : Ringbuf π) (p : π) : Option (Fin 2) :=
  if (rb.owners 0).proc = some p then some 0
  else if (rb.owners 1).proc = some p then some 1
  else none

def activate (rb : Ringbuf π) (name : List UInt8) (a : Allocator) :
    Except RingbufError Unit × Ringbuf π × Allocator :=
  if 0 < rb.refcount then (.error .alreadyActive, rb, a)
  else if maxNameLen < name.length ∨ name.length = 0 then (.error .badNameLength, rb, a)
  else
    let rb := rb.writeName name
    let bufs := allocBufPages a ringbufSize
    match bufs.2.allocPage with
    | (none, a) => (.error .outOfMemory, { rb with pages := none }, a.freePages bufs.1)
    | (some book, a) =>
      if bufs.1.length < ringbufSize then
        (.error .outOfMemory, { rb with pages := none }, (a.freePage book).freePages bufs.1)
      else (.ok (), { rb with pages := some ⟨bufs.1, book⟩ }, a)

def deactivate (rb : Ringbuf π) (a : Allocator) : Except Panic (Ringbuf π × Allocator) :=
  match rb.pages with
  | none => .error .bookPageIsAlreadyNull
  | some pages =>
    let a := (a.freePages pages.buf).freePage pages.book
    if (rb.owners 0).proc.isSome || (rb.owners 1).proc.isSome then .error .hasOwners
    else .ok (.empty, a)

end Ringbuf

namespace State

def setRingbuf (s : State π) (i : Fin maxRingbufs) (rb : Ringbuf π) : State π :=
  { s with ringbufs := Function.update s.ringbufs i rb }

def setProcess (s : State π) (p : π) (proc : Process) : State π :=
  { s with processes := Function.update s.processes p proc }

def findFreeRingbuf (s : State π) : Option (Fin maxRingbufs) :=
  (List.finRange maxRingbufs).find? (fun i => (s.ringbufs i).refcount = 0)

def findRingbufByName (s : State π) (name : List UInt8) : Option (Fin maxRingbufs) :=
  (List.finRange maxRingbufs).find? (fun i =>
    (s.ringbufs i).refcount ≠ 0 && (s.ringbufs i).name == name)

/-- Find the named ring buffer or activate a free slot: the slot and the owner
that the caller becomes. -/
def claim (s : State π) (p : π) (name : List UInt8) :
    Except Panic (Except RingbufError (Fin maxRingbufs × Fin 2) × State π) :=
  match s.findRingbufByName name with
  | some i =>
    let owner := fun o => ((s.ringbufs i).owners o).proc
    if owner 0 = some p ∨ owner 1 = some p then .ok (.error .alreadyIsOwner, s)
    else if owner 0 = none ∧ owner 1 = none then .error .orphanedFoundByName
    else if (owner 0).isSome ∧ (owner 1).isSome then .ok (.error .alreadyTwoOwners, s)
    else .ok (.ok (i, if owner 1 = none then 1 else 0), s)
  | none =>
    match s.findFreeRingbuf with
    | none => .ok (.error .noFreeRingbuf, s)
    | some i =>
      match (s.ringbufs i).activate name s.allocator with
      | (.error e, rb, a) => .ok (.error e, { s.setRingbuf i rb with allocator := a })
      | (.ok (), rb, a) =>
        if (rb.owners 0).proc.isSome || (rb.owners 1).proc.isSome then .error .freeHasOwners
        else .ok (.ok (i, 0), { s.setRingbuf i rb with allocator := a })

/-- The process becomes the owner. -/
def own (s : State π) (p : π) (i : Fin maxRingbufs) (o : Fin 2) : State π :=
  let rb := s.ringbufs i
  let owner := { rb.owners o with proc := some p }
  let rb := { rb with
    refcount := rb.refcount + 1, owners := Function.update rb.owners o owner }
  let proc := s.processes p
  (s.setRingbuf i rb).setProcess p { proc with ownedRingbufsCount := proc.ownedRingbufsCount + 1 }

end State

/-- `sub(page_size)`, which wraps. -/
def pageBelow (v : ℕ) : ℕ := if v = 0 then 2 ^ 52 - 1 else v - 1

/-- Addition and subtraction of `n` pages, which wrap. -/
def pagesAbove (v n : ℕ) : ℕ := (v + n) % 2 ^ 52
def pagesBelow (v n : ℕ) : ℕ := if n ≤ v then v - n else v + 2 ^ 52 - n

/-- Map pages one below the other from `top` on. -/
def mapPages (t : PageTable) (a : Allocator) (top : ℕ) :
    List Page → Except Panic (Bool × PageTable × Allocator × ℕ)
  | [] => .ok (true, t, a, top)
  | page :: pages =>
    if maxVirtualPage ≤ top then .error (.memory .walk)
    else
      match t.map a top page .data true with
      | (.ok, t, a) => mapPages t a (pageBelow top) pages
      | (_, t, a) => .ok (false, t, a, top)

/-- The bytes of the address of a virtual page. -/
def addressBytes (v : ℕ) : List UInt8 :=
  (List.range 8).map (LittleEndian.byteLE (v * pageSize))

namespace State

/-- What is done once the slot is claimed: the pages are mapped, the addresses
stored, and the address of the ring buffer is copied out. -/
def install (s : State π) (p : π) (i : Fin maxRingbufs) (o : Fin 2) (address : ℕ) :
    Except Panic (Except RingbufError Unit × State π) :=
  match (s.ringbufs i).pages with
  | none => .error .bufPageIsNull
  | some pages =>
    let proc := s.processes p
    match mapPages proc.pageTable s.allocator proc.topFreeVirtualPage
        (pages.buf ++ pages.buf ++ [pages.book]) with
    | .error panic => .error panic
    | .ok (mapped, t, a, top) =>
      let s := { s.setProcess p { proc with pageTable := t, topFreeVirtualPage := top } with
        allocator := a }
      if mapped then
        let rb := s.ringbufs i
        let owner := { rb.owners o with vbook := pagesAbove top 1, vbuf := pagesAbove top 2 }
        let s := s.setRingbuf i { rb with owners := Function.update rb.owners o owner }
        match copyOut t s.memory address (addressBytes (pagesAbove top 2)) with
        | (.error _, memory, _) => .ok (.error .copyOutFailed, { s with memory := memory })
        | (.ok (), memory, _) =>
          let s := { s with memory := memory }
          let proc := s.processes p
          let guarded := { proc with topFreeVirtualPage := pageBelow proc.topFreeVirtualPage }
          .ok (.ok (), s.setProcess p guarded)
      else .ok (.error .mapPagesFailed, s)

/-- The `errdefer` of `ringbuf`. -/
def giveUp (s : State π) (i : Fin maxRingbufs) (o : Fin 2) : Except Panic (State π) :=
  let rb := s.ringbufs i
  let owner := { rb.owners o with proc := none }
  let rb := { rb with
    refcount := rb.refcount - 1, owners := Function.update rb.owners o owner }
  match rb.deactivate s.allocator with
  | .error panic => .error panic
  | .ok (rb, a) => .ok { s.setRingbuf i rb with allocator := a }

/-- `ringbuf(name, .open, address)` of the process `p`. -/
def openRingbuf (s : State π) (p : π) (name : List UInt8) (address : ℕ) :
    Except Panic (Except RingbufError Unit × State π) :=
  if maxNameLen < name.length ∨ name.length = 0 then .ok (.error .badNameLength, s)
  else
    match s.claim p name with
    | .error panic => .error panic
    | .ok (.error e, s) => .ok (.error e, s)
    | .ok (.ok (i, o), s) =>
      match (s.own p i o).install p i o address with
      | .error panic => .error panic
      | .ok (.ok (), s) => .ok (.ok (), s)
      | .ok (.error e, s) =>
        match s.giveUp i o with
        | .error panic => .error panic
        | .ok s => .ok (.error e, s)

/-- `disownIfOwned` of the owner that the process is. -/
def disown (s : State π) (p : π) (i : Fin maxRingbufs) (o : Fin 2) : Except Panic (State π) :=
  let rb := s.ringbufs i
  let owner := rb.owners o
  let proc := s.processes p
  if owner.vbuf = 0 then .error .disowningWithoutVbuf
  else
    match proc.pageTable.unmap false s.allocator owner.vbuf (ringbufSize * 2) with
    | .error panic => .error (.memory panic)
    | .ok (t, a) =>
      if owner.vbook = 0 then .error .disowningWithoutVbook
      else
        match t.unmap false a owner.vbook 1 with
        | .error panic => .error (.memory panic)
        | .ok (t, a) =>
          let rb := { rb with
            refcount := sub32 rb.refcount 1, owners := Function.update rb.owners o .empty }
          let s := s.setProcess p { proc with
            pageTable := t, ownedRingbufsCount := ProcessMemory.Process.sub64 proc.ownedRingbufsCount 1 }
          if rb.refcount = 0 then
            match rb.deactivate a with
            | .error panic => .error panic
            | .ok (rb, a) => .ok { s.setRingbuf i rb with allocator := a }
          else .ok { s.setRingbuf i rb with allocator := a }

def disownIfOwned (s : State π) (p : π) (i : Fin maxRingbufs) : Except Panic (State π) :=
  match (s.ringbufs i).ownerOf p with
  | none => .ok s
  | some o => s.disown p i o

/-- `ringbuf_disown_all` -/
def disownAll (s : State π) (p : π) : Except Panic (State π) :=
  (List.finRange maxRingbufs).foldlM (fun s i => s.disownIfOwned p i) s

/-- `ringbuf(name, .close, address)` of the process `p`. -/
def closeRingbuf (s : State π) (p : π) (name : List UInt8) (address : ℕ) :
    Except Panic (Except RingbufError Unit × State π) :=
  if maxNameLen < name.length ∨ name.length = 0 then .ok (.error .badNameLength, s)
  else
    match copyIn (s.processes p).pageTable s.memory (List.replicate 8 0) address with
    | (.error _, _, _) => .ok (.error .copyInFailed, s)
    | (.ok (), bytes, _) =>
      match s.findRingbufByName name with
      | none => .ok (.error .nameNotFound, s)
      | some i =>
        let rb := s.ringbufs i
        let vaddr := LittleEndian.readLE (fun j => bytes.getD j 0) 8
        if vaddr = 0 then .ok (.error .noAddrGiven, s)
        else
          match rb.ownerOf p with
          | none => .ok (.error .notOwner, s)
          | some o =>
            let owner := rb.owners o
            if owner.vbuf * pageSize ≠ vaddr then .ok (.error .badAddr, s)
            -- The address is that of a page from here on, and not zero.
            else if owner.vbook * pageSize ≠ vaddr - pageSize then .ok (.error .badAddr, s)
            else if rb.refcount = 0 then .ok (.error .alreadyInactive, s)
            else if rb.pages.isNone then .error .bookPageIsNull
            else
              match s.disownIfOwned p i with
              | .error panic => .error panic
              | .ok s =>
                let proc := s.processes p
                let lowest := proc.topFreeVirtualPage = pagesBelow owner.vbuf 3
                if lowest then
                  .ok (.ok (), s.setProcess p { proc with
                    topFreeVirtualPage :=
                      pagesAbove proc.topFreeVirtualPage (1 + 1 + 2 * ringbufSize) })
                else .ok (.ok (), s)

end State

end Zigmaos.RingbufManager
