import Mathlib.Data.Int.DivMod
import Mathlib.Data.Set.Function
import Zigmaos.CircularList

/-!
# The heap allocator of user programs

`umalloc.c`: a block is a header of 16 bytes and the units of 16 bytes behind
it, free blocks are on a circular list that starts at the sentinel `base`, and
`sbrk` takes an `int`. Addresses are numbers: the user's are below 2^38, and a
size is less than 2^32 units.
-/
namespace Zigmaos.UserMalloc

open CircularList

/-- `sizeof(Header)` -/
def headerSize : ℕ := 16

/-- What the headers hold, and the static `freep`, which is null at first. -/
structure Heap where
  ptr : ℕ → ℕ
  size : ℕ → ℕ
  freep : ℕ

namespace Heap

def setPtr (h : Heap) (p next : ℕ) : Heap := { h with ptr := Function.update h.ptr p next }

/-- Sizes are `uint`. -/
def setSize (h : Heap) (p n : ℕ) : Heap := { h with size := Function.update h.size p (n % 2 ^ 32) }

/-- The address behind a block. -/
def blockEnd (h : Heap) (p : ℕ) : ℕ := p + h.size p * headerSize

/-- Where the loop of `free` stops. -/
def isBefore (h : Heap) (bp p : ℕ) : Bool :=
  (p < bp && bp < h.ptr p) || (h.ptr p ≤ p && (p < bp || bp < h.ptr p))

/-- `free` once it knows the node before the block. -/
def link (h : Heap) (bp p : ℕ) : Heap :=
  let h :=
    if h.blockEnd bp = h.ptr p then
      (h.setSize bp (h.size bp + h.size (h.ptr p))).setPtr bp (h.ptr (h.ptr p))
    else h.setPtr bp (h.ptr p)
  let h :=
    if h.blockEnd p = bp then (h.setSize p (h.size p + h.size bp)).setPtr p (h.ptr bp)
    else h.setPtr p bp
  { h with freep := p }

/-- `free`; a search that runs out of fuel has no result. -/
def free (fuel : ℕ) (h : Heap) (ap : ℕ) : Option Heap :=
  let bp := ap - headerSize
  (walk h.ptr (h.isBefore bp) fuel h.freep).map (h.link bp)

/-- `malloc` once it has found a block that is large enough: the result, and the heap. -/
def take (h : Heap) (prevp p nunits : ℕ) : ℕ × Heap :=
  if h.size p = nunits then (p + headerSize, { h.setPtr prevp (h.ptr p) with freep := prevp })
  else
    let h := h.setSize p (h.size p - nunits)
    let p := h.blockEnd p
    (p + headerSize, { h.setSize p nunits with freep := prevp })

/-- The initialisation of the list. -/
def initialized (h : Heap) (base : ℕ) : Heap :=
  if h.freep = 0 then { (h.setPtr base base).setSize base 0 with freep := base } else h

end Heap

/-- A process and its heap. -/
structure State where
  heap : Heap
  brk : ℕ
  /-- The memory that `sbrk` has given to `morecore`: addresses and lengths. -/
  obtained : List (ℕ × ℕ)
  /-- The pointers that `malloc` has returned and that are not freed yet, with the
  bytes asked for. -/
  live : List (ℕ × ℕ)

/-- The argument of `sbrk` is an `int`. -/
def toInt (n : ℕ) : ℤ := (n : ℤ).bmod (2 ^ 32)

/-- `nunits` of `malloc`, a `uint`. -/
def unitsFor (nbytes : ℕ) : ℕ := ((nbytes + headerSize - 1) / headerSize + 1) % 2 ^ 32

def morecoreUnits (nu : ℕ) : ℕ := if nu < 4096 then 4096 else nu

namespace State

/-- `morecore`, for which `sbrk` moves the break if it is `granted`, and fails otherwise. -/
def morecore (fuel : ℕ) (s : State) (nu : ℕ) (granted : Bool) : Option (Option ℕ × State) :=
  if granted then
    let nu := morecoreUnits nu
    let n := toInt (nu * headerSize)
    let p := s.brk
    let s := { s with brk := (s.brk + n).toNat, obtained := (p, n.toNat) :: s.obtained }
    match (s.heap.setSize p nu).free fuel (p + headerSize) with
    | none => none
    | some h => some (some h.freep, { s with heap := h })
  else some (none, s)

/-- The loop of `malloc`. The list says which calls of `sbrk` are granted. -/
def mallocLoop (nunits : ℕ) : ℕ → State → List Bool → ℕ → ℕ → Option (Option ℕ × State)
  | 0, _, _, _, _ => none
  | fuel + 1, s, grants, prevp, p =>
    if nunits ≤ s.heap.size p then
      let (result, h) := s.heap.take prevp p nunits
      some (some result, { s with heap := h })
    else if p = s.heap.freep then
      match s.morecore fuel nunits (grants.headD false) with
      | none => none
      | some (none, s) => some (none, s)
      | some (some p, s) => mallocLoop nunits fuel s grants.tail p (s.heap.ptr p)
    else mallocLoop nunits fuel s grants p (s.heap.ptr p)

def malloc (base fuel : ℕ) (s : State) (nbytes : ℕ) (grants : List Bool) :
    Option (Option ℕ × State) :=
  let s := { s with heap := s.heap.initialized base }
  mallocLoop (unitsFor nbytes) fuel s grants s.heap.freep (s.heap.ptr s.heap.freep)

end State

inductive Event
  | malloc (nbytes : UInt32) (grants : List Bool)
  | free (ap : ℕ)
  /-- Other code of the process moves the break up. -/
  | moveBreak (n : ℕ)

/-- What the program does: it frees only blocks that are allocated. -/
def step (base fuel : ℕ) (s : State) : Event → Option State
  | .malloc nbytes grants =>
    match s.malloc base fuel nbytes.toNat grants with
    | none => none
    | some (none, s) => some s
    | some (some ap, s) => some { s with live := (ap, nbytes.toNat) :: s.live }
  | .free ap =>
    if ap ∈ s.live.map Prod.fst then
      match s.heap.free fuel ap with
      | none => none
      | some h => some { s with heap := h, live := s.live.filter (·.1 ≠ ap) }
    else none
  | .moveBreak n => some { s with brk := s.brk + n }

end Zigmaos.UserMalloc
