import Zigmaos.VirtualMemory

/-!
# The page table of the kernel

`freerange` puts the memory behind the image of the kernel on the free list, and
`initPageTable` maps the devices, the kernel and a stack for each process. A panic
ends the boot.
-/
namespace Zigmaos.KernelMemory
open Memory (Page Index pageSize PagePermissions)
open VirtualMemory

def uart0BaseAddress : ℕ := 0x10000000
def virtio0BaseAddress : ℕ := 0x10001000
def plicBaseAddress : ℕ := 0x0c000000
def plicSize : ℕ := 0x400000
def kernelBaseAddress : ℕ := 0x80000000
def trampolineVirtualAddress : ℕ := maxVirtualAddress - pageSize
def kernelStackPageCount : ℕ := 6
def processTableLen : ℕ := 64

def kernelStackAddress (processId : ℕ) : ℕ :=
  trampolineVirtualAddress - (processId + 1) * (kernelStackPageCount + 1) * pageSize

/-- The image of the kernel, as the linker script lays it out. -/
structure Image where
  trampoline : ℕ
  etext : ℕ
  kernelEnd : ℕ
  base_le : kernelBaseAddress ≤ trampoline
  aligned : trampoline % pageSize = 0
  etext_eq : etext = trampoline + pageSize
  etext_le : etext ≤ kernelEnd

inductive Panic
  | memory (p : VirtualMemory.Panic)
  | freerange | allocPageForce | kernelVirtualMap | mapKernelStacks
  deriving DecidableEq

/-! ## The allocator -/

/-- The loop of `freerange`. -/
def freerange (pOffset paEnd : ℕ) (m : Machine) : Except Panic Machine :=
  if pOffset + pageSize ≤ paEnd then
    match m.freePage (pOffset / pageSize) with
    | none => .error .freerange
    | some m => freerange (pOffset + pageSize) paEnd m
  else .ok m
termination_by paEnd - pOffset
decreasing_by
  simp only [pageSize] at *
  omega

def alignForward (address : ℕ) : ℕ := (address + (pageSize - 1)) / pageSize * pageSize

def init (m : Machine) : Except Panic Machine :=
  freerange (alignForward m.kernelEndAddress) physicalStopAddress m

inductive InitialValue
  | zeroed | garbage
  deriving DecidableEq

def InitialValue.entry : InitialValue → PageTableEntry
  | .zeroed => .empty
  | .garbage => .ofWord 0x0505050505050505

def allocPage (value : InitialValue) (m : Machine) : Option Page × Machine :=
  match m.allocator.allocPage with
  | (some page, a) =>
    (some page, { m with
      memory := Function.update m.memory page (fun _ => value.entry)
      allocator := a })
  | (none, a) => (none, { m with allocator := a })

/-! ## The table -/

inductive MappingKind
  | code | data
  deriving DecidableEq

def MappingKind.permissions (kind : MappingKind) : PagePermissions :=
  ⟨true, kind = .data, kind = .code⟩

def offsetFrom (address base : ℕ) : Except Panic ℕ :=
  if base ≤ address then .ok (address - base) else .error (.memory .integerOverflow)

def kernelVirtualMap (kernelPagetable : Page) (virtualAddress physicalAddress size : ℕ)
    (kind : MappingKind) (m : Machine) : Except Panic Machine :=
  match map kernelPagetable virtualAddress physicalAddress size kind.permissions .kernel m with
  | .error p => .error (.memory p)
  | .ok (.error _, _) => .error .kernelVirtualMap
  | .ok (.ok (), m) => .ok m

def kernelInitMap (kernelPagetable : Page) (physicalAddress size : ℕ) (kind : MappingKind)
    (m : Machine) : Except Panic Machine :=
  kernelVirtualMap kernelPagetable physicalAddress physicalAddress size kind m

/-- A turn of the inner loop of `mapKernelStacks`. -/
def mapKernelStackPage (kernelPagetable : Page) (index : ℕ) (m : Machine) (i : ℕ) :
    Except Panic Machine :=
  match allocPage .garbage m with
  | (none, _) => .error .mapKernelStacks
  | (some page, m) =>
    kernelVirtualMap kernelPagetable (kernelStackAddress index + i * pageSize) (page * pageSize)
      pageSize .data m

def mapKernelStacks (kernelPagetable : Page) (m : Machine) : Except Panic Machine :=
  (List.range processTableLen).foldlM
    (fun m index => (List.range kernelStackPageCount).foldlM
      (mapKernelStackPage kernelPagetable index) m) m

def initPageTable (image : Image) (m : Machine) : Except Panic (Page × Machine) :=
  match allocPage .zeroed m with
  | (none, _) => .error .allocPageForce
  | (some page, m) => do
    let m ← kernelInitMap page uart0BaseAddress pageSize .data m
    let m ← kernelInitMap page virtio0BaseAddress pageSize .data m
    let m ← kernelInitMap page plicBaseAddress plicSize .data m
    let m ← kernelInitMap page kernelBaseAddress
      (← offsetFrom image.etext kernelBaseAddress) .code m
    let m ← kernelInitMap page image.etext (← offsetFrom physicalStopAddress image.etext) .data m
    let m ← kernelVirtualMap page trampolineVirtualAddress image.trampoline pageSize .code m
    let m ← mapKernelStacks page m
    return (page, m)

/-- The machine before `init`, with anything in its memory. -/
def Image.machine (image : Image) (memory : Page → Index → PageTableEntry) : Machine :=
  ⟨memory, ⟨[], fun _ => false, 0⟩, image.kernelEnd⟩

/-- `main` of the first hart, up to `enablePaging`. -/
def boot (image : Image) (memory : Page → Index → PageTableEntry) :
    Except Panic (Page × Machine) := do
  initPageTable image (← init (image.machine memory))

end Zigmaos.KernelMemory
