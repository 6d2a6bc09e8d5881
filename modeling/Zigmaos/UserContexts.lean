import Zigmaos.Assembly

/-!
# The registers of user programs

Processes leave user mode by traps and come back to it, on the same hart or on
another one, while other processes do the same. A program finds in its registers
what it left there, but for what its own system calls return.
-/
namespace Zigmaos.UserContexts
open Transition RegisterMachine Assembly

/-- A doubleword of memory: a physical page and an offset in it. -/
abbrev Place := ℕ × ℕ

/-- Machine mode does not look up addresses. -/
def physical (address : Word) : Place := (address.toNat / 4096, address.toNat % 4096)

/-- A hart runs a user program, or the kernel, there for a process or for none. -/
inductive Mode (ι : Type)
  | user (p : ι)
  | kernel (p : Option ι)
  deriving DecidableEq

/-- What the kernel is linked to, and the stacks and numbers that it gives out. -/
structure Kernel (ι η : Type) where
  satp : Word
  usertrap : Word
  userret : Word
  stackTop : ι → Word
  hartid : η → Word

/-- `ι` are the processes, `η` the harts. The page tables lie apart from the trap
frames: `tables` is what they say of each virtual page. -/
structure State (ι η : Type) where
  registers : η → Register → Word
  control : η → Control → Word
  pc : η → Word
  mode : η → Mode ι
  memory : Place → Word
  tables : Word → Word → Option ℕ
  trapFrame : ι → Option ℕ
  pageTable : ι → Word

inductive Event (ι η : Type)
  /-- A user program computes, and changes memory of its own. -/
  | compute (h : η) (registers : Register → Word) (pc : Word) (memory : Place → Word)
  /-- A trap from user mode, up to where `usertrap` has saved the program counter. -/
  | trap (h : η)
  /-- `usertrap` skips the `ecall` of a system call. -/
  | skipCall (h : η)
  /-- `syscall.handler` returns a value. -/
  | result (h : η) (value : Word)
  /-- `fork`, with the trap frame and the page table of the child. -/
  | fork (h : η) (child : ι) (page : ℕ) (satp : Word)
  /-- `exec`, where it commits. -/
  | exec (h : η) (satp entry stackPointer : Word)
  | initFirstUser (p : ι) (page : ℕ) (satp : Word)
  | free (p : ι)
  /-- `prepareReturn` and `userret`. -/
  | return (h : η)
  /-- Other kernel code. -/
  | kernel (h : η) (registers : Register → Word) (control : Control → Word)
    (memory : Place → Word) (tables : Word → Word → Option ℕ)
  /-- The scheduler changes the process of a hart. -/
  | switch (h : η) (p : Option ι)
  /-- A machine-mode timer interrupt, which can come at any time. -/
  | timer (h : η)

variable {ι η : Type}

section Steps
variable [DecidableEq ι] [DecidableEq η] [Fintype ι] [Fintype η]

namespace State
variable (k : Kernel ι η) (s : State ι η)

/-- An address is looked up by its page. -/
def mmu (satp address : Word) : Option Place :=
  (s.tables satp (address >>> 12)).map fun page => (page, address.toNat % 4096)

def machine (h : η) : Machine Register Control Place :=
  ⟨s.registers h, s.control h, s.memory, s.pc h⟩

/-- A hart after code that it has run. -/
def withMachine (h : η) (m : Machine Register Control Place) : State ι η :=
  { s with
    registers := Function.update s.registers h m.registers
    control := Function.update s.control h m.control
    pc := Function.update s.pc h m.pc
    memory := m.memory }

def setMode (h : η) (mode : Mode ι) : State ι η :=
  { s with mode := Function.update s.mode h mode }

def setField (page : ℕ) (f : Field) (value : Word) : State ι η :=
  { s with memory := Function.update s.memory (page, f.offset) value }

def field (page : ℕ) (f : Field) : Word := s.memory (page, f.offset)

/-- The trap frames stay as they are. -/
def KeepsFrames (memory : Place → Word) : Prop :=
  ∀ p, ∀ page ∈ s.trapFrame p, ∀ o ∈ Field.offsets, memory (page, o) = s.memory (page, o)

/-- Each user page table maps the trap frame of its process. -/
def MapsFrames (tables : Word → Word → Option ℕ) : Prop :=
  ∀ p, ∀ page ∈ s.trapFrame p, tables (s.pageTable p) (trapframe >>> 12) = some page

instance (memory : Place → Word) : Decidable (s.KeepsFrames memory) := by
  unfold KeepsFrames; infer_instance

instance (tables : Word → Word → Option ℕ) : Decidable (s.MapsFrames tables) := by
  unfold MapsFrames; infer_instance

/-- No hart runs the process or kernel code for it. -/
def Away (p : ι) : Prop := ∀ h, s.mode h ≠ .user p ∧ s.mode h ≠ .kernel (some p)

instance (p : ι) : Decidable (s.Away p) := by
  unfold Away; infer_instance

/-- The process for which a hart is in the kernel, with its trap frame. -/
def current (h : η) : Option (ι × ℕ) :=
  match s.mode h with
  | .kernel (some p) => (s.trapFrame p).map (p, ·)
  | _ => none

/-- `process.init`: a trap frame that no one has, and a page table that maps it. -/
def CanInit (p : ι) (page : ℕ) (satp : Word) : Prop :=
  s.trapFrame p = none ∧ (∀ q, s.trapFrame q ≠ some page) ∧
    s.tables satp (trapframe >>> 12) = some page

instance (p : ι) (page : ℕ) (satp : Word) : Decidable (s.CanInit p page satp) := by
  unfold CanInit; infer_instance

def init (p : ι) (page : ℕ) (satp : Word) : State ι η :=
  { s with
    trapFrame := Function.update s.trapFrame p (some page)
    pageTable := Function.update s.pageTable p satp }

/-- `child.trapFrame.* = parent.trapFrame.*`. -/
def copyFrame (source target : ℕ) : State ι η :=
  { s with memory := fun a => if a.1 = target ∧ a.2 ∈ Field.offsets then s.memory (source, a.2)
      else s.memory a }

/-- The trap frame as `prepareReturn` leaves it. -/
def fillFrame (h : η) (p : ι) (page : ℕ) : State ι η :=
  (((s.setField page .kernelSatp (s.control h .satp)).setField page .kernelSp (k.stackTop p)).setField
    page .kernelTrap k.usertrap).setField page .kernelHartid (s.registers h .tp)

/-- A word of the scratch area for timer interrupts. -/
def scratch (h : η) (offset : ℕ) : Place := physical (s.control h .mscratch + .ofNat 64 offset)

def mtimecmp (h : η) : Word := s.memory (s.scratch h 24)

/-- The scratch area and MTIMECMP are apart from each other and from trap frames. -/
def TimerReady (h : η) : Prop :=
  (s.control h .mscratch).toNat % 8 = 0 ∧ (s.mtimecmp h).toNat % 8 = 0 ∧
  (∀ o ∈ [0, 8, 16, 24, 32], physical (s.mtimecmp h) ≠ s.scratch h o) ∧
  ∀ p, ∀ page ∈ s.trapFrame p, page ≠ (physical (s.mtimecmp h)).1 ∧
    ∀ o ∈ [0, 8, 16], page ≠ (s.scratch h o).1

instance (h : η) : Decidable (s.TimerReady h) := by
  unfold TimerReady; infer_instance

/-- The hart where `timervec` begins. -/
def timed (h : η) : Machine Register Control Place :=
  { s.machine h with control := Function.update (s.control h) .mepc (s.pc h) }

/-- The hart where `userret` begins. -/
def returning (h : η) (p : ι) (page : ℕ) : Machine Register Control Place :=
  { s.machine h with
    registers := Function.update (s.registers h) .a0 (s.pageTable p)
    control := Function.update (s.control h) .sepc (s.field page .epc) }

end State

variable (k : Kernel ι η)

def step (s : State ι η) : Event ι η → Option (State ι η)
  | .compute h registers pc memory =>
    match s.mode h with
    | .user _ =>
      if s.KeepsFrames memory then
        some (s.withMachine h { s.machine h with registers := registers, pc := pc, memory := memory })
      else none
    | _ => none
  | .trap h =>
    match s.mode h with
    | .user p => do
      let page ← s.trapFrame p
      let m := { s.machine h with control := Function.update (s.control h) .sepc (s.pc h) }
      let m ← exec (translate s.mmu) m (uservec k.userret)
      some (((s.withMachine h m).setField page .epc (m.control .sepc)).setMode h (.kernel (some p)))
    | _ => none
  | .skipCall h => do
    let (_, page) ← s.current h
    some (s.setField page .epc (s.field page .epc + 4))
  | .result h value => do
    let (_, page) ← s.current h
    some (s.setField page (.register .a0) value)
  | .fork h child page satp => do
    let (_, parent) ← s.current h
    if s.CanInit child page satp then
      some (((s.init child page satp).copyFrame parent page).setField page (.register .a0) 0)
    else none
  | .exec h satp entry stackPointer => do
    let (p, page) ← s.current h
    if s.tables satp (trapframe >>> 12) = some page then
      some { ((s.setField page (.register .a1) stackPointer).setField page .epc entry).setField page
          (.register .sp) stackPointer with
        pageTable := Function.update s.pageTable p satp }
    else none
  | .initFirstUser p page satp =>
    if s.CanInit p page satp then
      some (((s.init p page satp).setField page .epc 0).setField page (.register .sp) pgsize)
    else none
  | .free p =>
    if s.Away p then some { s with trapFrame := Function.update s.trapFrame p none } else none
  | .return h => do
    let (p, page) ← s.current h
    let s := s.fillFrame k h p page
    let m ← exec (translate s.mmu) (s.returning h p page) userret
    some ((s.withMachine h m).setMode h (.user p))
  | .kernel h registers control memory tables =>
    match s.mode h with
    | .kernel _ =>
      if s.KeepsFrames memory ∧ s.MapsFrames tables ∧ registers .tp = s.registers h .tp ∧
          control .satp = s.control h .satp then
        some { s.withMachine h ⟨registers, control, memory, s.pc h⟩ with tables := tables }
      else none
    | _ => none
  | .switch h p =>
    match s.mode h with
    | .kernel _ =>
      if ∀ q ∈ p, s.Away q ∧ (s.trapFrame q).isSome then some (s.setMode h (.kernel p)) else none
    | _ => none
  | .timer h =>
    if s.TimerReady h then
      (exec (fun _ a => some (physical a)) (s.timed h) timervec).map (s.withMachine h)
    else none

/-! ## What the programs see -/

/-- The registers of a user program. -/
structure Context where
  registers : Register → Word
  pc : Word

/-- The contexts of all programs after an event. A trap, a return and all that the
kernel does in between change nothing. -/
def after (s : State ι η) (contexts : ι → Context) : Event ι η → ι → Context
  | .compute h registers pc _ =>
    match s.mode h with
    | .user p => Function.update contexts p ⟨registers, pc⟩
    | _ => contexts
  | .skipCall h =>
    match s.mode h with
    | .kernel (some p) =>
      Function.update contexts p { contexts p with pc := (contexts p).pc + 4 }
    | _ => contexts
  | .result h value =>
    match s.mode h with
    | .kernel (some p) => Function.update contexts p
        { contexts p with registers := Function.update (contexts p).registers .a0 value }
    | _ => contexts
  | .fork h child _ _ =>
    match s.mode h with
    | .kernel (some p) => Function.update contexts child
        { contexts p with registers := Function.update (contexts p).registers .a0 0 }
    | _ => contexts
  | .exec h _ entry stackPointer =>
    match s.mode h with
    | .kernel (some p) => Function.update contexts p
        ⟨Function.update (Function.update (contexts p).registers .a1 stackPointer) .sp
          stackPointer, entry⟩
    | _ => contexts
  | .initFirstUser p page _ => Function.update contexts p
      ⟨Function.update (fun r => s.field page (.register r)) .sp pgsize, 0⟩
  | _ => contexts

/-- A step, with the contexts that the programs should see. -/
def seenStep (r : State ι η × (ι → Context)) (e : Event ι η) : Option (State ι η × (ι → Context)) :=
  (step k r.1 e).map fun s' => (s', after r.1 r.2 e)

end Steps

/-! ## The invariant -/

/-- A hart runs a process, or kernel code for it. -/
def State.On (s : State ι η) (h : η) (p : ι) : Prop :=
  s.mode h = .user p ∨ s.mode h = .kernel (some p)

/-- The context in a trap frame. -/
def State.frame (s : State ι η) (page : ℕ) : Context :=
  ⟨fun r => s.field page (.register r), s.field page .epc⟩

/-- The trap frame has what `uservec` needs to enter the kernel on a hart. -/
structure Filled (k : Kernel ι η) (s : State ι η) (h : η) (p : ι) (page : ℕ) : Prop where
  satp : s.field page .kernelSatp = k.satp
  sp : s.field page .kernelSp = k.stackTop p
  trap : s.field page .kernelTrap = k.usertrap
  hartid : s.field page .kernelHartid = k.hartid h

/-- While a process is in user mode its context is in the registers of the hart, else
in its trap frame. -/
structure Inv (k : Kernel ι η) (s : State ι η) (contexts : ι → Context) : Prop where
  once : ∀ h h' p, s.On h p → s.On h' p → h = h'
  framed : ∀ h p, s.On h p → ∃ page, s.trapFrame p = some page
  apart : ∀ p q page, s.trapFrame p = some page → s.trapFrame q = some page → p = q
  maps : s.MapsFrames s.tables
  kernel : ∀ h p, s.mode h = .kernel p →
    s.registers h .tp = k.hartid h ∧ s.control h .satp = k.satp
  user : ∀ h p page, s.mode h = .user p → s.trapFrame p = some page →
    s.control h .satp = s.pageTable p ∧ Filled k s h p page
  running : ∀ h p, s.mode h = .user p → contexts p = ⟨s.registers h, s.pc h⟩
  resting : ∀ p page, s.trapFrame p = some page → (∀ h, s.mode h ≠ .user p) →
    contexts p = s.frame page

/-! ## What the code of trampoline.S does here -/

variable {k : Kernel ι η} {s s' : State ι η} {contexts : ι → Context} {h : η} {p : ι} {page : ℕ}

theorem offset_located : ∀ o ∈ Field.offsets, (trapframe + .ofNat 64 o).toNat % 8 = 0 ∧
    (trapframe + .ofNat 64 o) >>> 12 = trapframe >>> 12 ∧
    (trapframe + .ofNat 64 o).toNat % 4096 = o := by
  decide +kernel

theorem mapsFrame {satp : Word} (ht : s.tables satp (trapframe >>> 12) = some page) :
    MapsFrame (s.mmu satp) fun o => (page, o) := by
  refine ⟨fun o ho => ?_, fun o _ o' _ heq => (Prod.mk.inj heq).2⟩
  obtain ⟨haligned, hpage, hoffset⟩ := offset_located o ho
  rw [place, if_pos haligned, State.mmu, hpage, ht, hoffset]
  rfl

theorem Inv.mapsFrame (hi : Inv k s contexts) (hp : s.trapFrame p = some page) :
    MapsFrame (s.mmu (s.pageTable p)) fun o => (page, o) :=
  UserContexts.mapsFrame (hi.maps p page hp)

/-- The hart where `uservec` begins. -/
def State.trapping (s : State ι η) (h : η) : Machine Register Control Place :=
  { s.machine h with control := Function.update (s.control h) .sepc (s.pc h) }

theorem Inv.exec_uservec (hi : Inv k s contexts) (hm : s.mode h = .user p)
    (hp : s.trapFrame p = some page) :
    ∃ m, exec (translate s.mmu) (s.trapping h) (uservec k.userret) = some m ∧
      Entered (s.trapping h) m (fun o => (page, o)) k.userret := by
  have hsatp : (s.trapping h).control .satp = s.pageTable p := (hi.user h p page hm hp).1
  refine Assembly.exec_uservec k.userret ?_
  rw [hsatp]
  exact hi.mapsFrame hp

/-! ## Steps -/

theorem Inv.page_ne (hi : Inv k s contexts) {q : ι} {page' : ℕ} (hp : s.trapFrame p = some page)
    (hq : s.trapFrame q = some page') (hne : q ≠ p) : page' ≠ page := by
  rintro rfl
  exact hne (hi.apart q p page' hq hp)

theorem current_eq_some : s.current h = some (p, page) ↔
    s.mode h = .kernel (some p) ∧ s.trapFrame p = some page := by
  unfold State.current
  cases hm : s.mode h with
  | user q => simp
  | kernel q =>
    cases q with
    | none => simp
    | some q =>
      simp only [Option.map_eq_some_iff, Prod.mk.injEq, Mode.kernel.injEq, Option.some.injEq]
      constructor
      · rintro ⟨page', hq, rfl, rfl⟩
        exact ⟨rfl, hq⟩
      · rintro ⟨rfl, hq⟩
        exact ⟨page, hq, rfl, rfl⟩

@[simp] theorem field_setField_self (f : Field) (value : Word) :
    (s.setField page f value).field page f = value :=
  Function.update_self _ _ _

theorem field_setField_of_ne {f g : Field} (value : Word) (hne : g ≠ f) :
    (s.setField page f value).field page g = s.field page g :=
  Function.update_of_ne (fun heq => hne (offset_injective g f (Prod.mk.inj heq).2)) _ _

theorem memory_setField_of_ne (f : Field) (value : Word) {a : Place} (ha : a.1 ≠ page) :
    (s.setField page f value).memory a = s.memory a :=
  Function.update_of_ne (fun heq => ha (congrArg Prod.fst heq)) _ _

theorem physical_injective : Function.Injective physical := by
  intro a b h
  obtain ⟨hpage, hoffset⟩ := Prod.mk.inj h
  apply BitVec.eq_of_toNat_eq
  omega

theorem field_copyFrame (source : ℕ) (f : Field) :
    (s.copyFrame source page).field page f = s.field source f := by
  simp [State.copyFrame, State.field, offset_mem]

theorem memory_copyFrame_of_ne (source : ℕ) {a : Place} (ha : a.1 ≠ page) :
    (s.copyFrame source page).memory a = s.memory a := by
  simp [State.copyFrame, ha]

theorem Inv.not_user (hi : Inv k s contexts) (hm : s.mode h = .kernel (some p)) (h' : η) :
    s.mode h' ≠ .user p := by
  intro hq
  obtain rfl := hi.once h h' p (.inr hm) (.inl hq)
  rw [hm] at hq
  cases hq

theorem Inv.context (hi : Inv k s contexts) (hm : s.mode h = .kernel (some p))
    (hp : s.trapFrame p = some page) : contexts p = s.frame page :=
  hi.resting p page hp (hi.not_user hm)

/-- What is the same after an event of one hart, which runs a process with its trap
frame or kernel code for it. -/
structure Beside (s s' : State ι η) (h : η) (page : ℕ) : Prop where
  registers : ∀ h', h' ≠ h → s'.registers h' = s.registers h'
  control : ∀ h', h' ≠ h → s'.control h' = s.control h'
  pc : ∀ h', h' ≠ h → s'.pc h' = s.pc h'
  mode : ∀ h', h' ≠ h → s'.mode h' = s.mode h'
  tables : s'.tables = s.tables
  trapFrame : s'.trapFrame = s.trapFrame
  pageTable : s'.pageTable = s.pageTable
  field : ∀ q page', s.trapFrame q = some page' → page' ≠ page → ∀ f : Field,
    s'.field page' f = s.field page' f

/-- The context of a process is where it belongs. -/
inductive Placed (k : Kernel ι η) (s : State ι η) (h : η) (p : ι) (page : ℕ) : Context → Prop
  | user (mode : s.mode h = .user p) (satp : s.control h .satp = s.pageTable p)
    (filled : Filled k s h p page) : Placed k s h p page ⟨s.registers h, s.pc h⟩
  | kernel (mode : s.mode h = .kernel (some p)) (tp : s.registers h .tp = k.hartid h)
    (satp : s.control h .satp = k.satp) : Placed k s h p page (s.frame page)

theorem Placed.mode_iff {c : Context} (h' : Placed k s h p page c) (q : ι) :
    s.On h q ↔ q = p := by
  cases h' with
  | user hm _ _ => simp [State.On, hm, eq_comm]
  | kernel hm _ _ => simp [State.On, hm, eq_comm]

theorem frame_congr (hf : ∀ f : Field, s'.field page f = s.field page f) :
    s'.frame page = s.frame page := by
  simp only [State.frame, hf]

theorem Filled.congr {h' : η} {q : ι} (hfilled : Filled k s h' q page)
    (hf : ∀ f : Field, s'.field page f = s.field page f) : Filled k s' h' q page :=
  ⟨(hf _).trans hfilled.satp, (hf _).trans hfilled.sp, (hf _).trans hfilled.trap,
    (hf _).trans hfilled.hartid⟩

theorem frame_setEpc (value : Word) :
    (s.setField page .epc value).frame page = { s.frame page with pc := value } := by
  simp only [State.frame, field_setField_self, Context.mk.injEq, and_true]
  funext r
  exact field_setField_of_ne value (by simp)

theorem frame_setRegister (r : Register) (value : Word) :
    (s.setField page (.register r) value).frame page = { s.frame page with
      registers := Function.update (s.frame page).registers r value } := by
  simp only [State.frame, Context.mk.injEq]
  refine ⟨?_, field_setField_of_ne value (by simp)⟩
  funext r'
  by_cases hr : r' = r
  · subst hr
    simp
  · rw [Function.update_of_ne hr, field_setField_of_ne value (by simpa using hr)]

theorem field_fillFrame_of_register (r : Register) :
    (s.fillFrame k h p page).field page (.register r) = s.field page (.register r) := by
  simp only [State.fillFrame, field_setField_of_ne, ne_eq, reduceCtorEq, not_false_eq_true]

theorem filled_fillFrame (htp : s.registers h .tp = k.hartid h) (hsatp : s.control h .satp = k.satp) :
    Filled k (s.fillFrame k h p page) h p page := by
  constructor
  · simp [State.fillFrame, field_setField_of_ne, hsatp]
  · simp [State.fillFrame, field_setField_of_ne]
  · simp [State.fillFrame, field_setField_of_ne]
  · simp [State.fillFrame, htp]

variable [DecidableEq ι] [DecidableEq η]

/-- One hart's event keeps the invariant if it puts the context of its process where it
belongs. -/
theorem Inv.move (hi : Inv k s contexts) (hon : s.On h p) (hp : s.trapFrame p = some page)
    (hs : Beside s s' h page) {c : Context} (hc : Placed k s' h p page c) :
    Inv k s' (Function.update contexts p c) := by
  have hself : ∀ q, s'.On h q ↔ q = p := hc.mode_iff
  have hon' : ∀ h' q, s'.On h' q → s.On h' q := by
    intro h' q hq
    by_cases hh : h' = h
    · subst hh
      rwa [(hself q).mp hq]
    · rwa [State.On, hs.mode h' hh] at hq
  have hne : ∀ h' q, h' ≠ h → s.On h' q → q ≠ p := by
    rintro h' q hh hq rfl
    exact hh (hi.once h' h q hq hon)
  have hfield : ∀ q page', s.trapFrame q = some page' → q ≠ p → ∀ f : Field,
      s'.field page' f = s.field page' f :=
    fun q page' hq hqp => hs.field q page' hq (hi.page_ne hp hq hqp)
  refine ⟨fun h₁ h₂ q h₁q h₂q => hi.once h₁ h₂ q (hon' h₁ q h₁q) (hon' h₂ q h₂q),
    fun h' q hq => ?_, ?_, ?_, fun h' q hq => ?_, fun h' q page' hq hpage => ?_,
    fun h' q hq => ?_, fun q page' hq hrest => ?_⟩
  · rw [hs.trapFrame]
    exact hi.framed h' q (hon' h' q hq)
  · rw [hs.trapFrame]
    exact hi.apart
  · simp only [State.MapsFrames, hs.trapFrame, hs.tables, hs.pageTable]
    exact hi.maps
  · by_cases hh : h' = h
    · subst hh
      cases hc with
      | user hm _ _ =>
        rw [hm] at hq
        cases hq
      | kernel hm htp hsatp => exact ⟨htp, hsatp⟩
    · rw [hs.mode h' hh] at hq
      rw [hs.registers h' hh, hs.control h' hh]
      exact hi.kernel h' q hq
  · rw [hs.trapFrame] at hpage
    by_cases hh : h' = h
    · subst hh
      obtain rfl := (hself q).mp (.inl hq)
      obtain rfl := Option.some.inj (hp.symm.trans hpage)
      cases hc with
      | user hm hsatp hfilled => exact ⟨hsatp, hfilled⟩
      | kernel hm _ _ =>
        rw [hm] at hq
        cases hq
    · rw [hs.mode h' hh] at hq
      obtain ⟨hsatp, hfilled⟩ := hi.user h' q page' hq hpage
      rw [hs.control h' hh, hs.pageTable]
      exact ⟨hsatp, hfilled.congr (hfield q page' hpage (hne h' q hh (.inl hq)))⟩
  · by_cases hh : h' = h
    · subst hh
      obtain rfl := (hself q).mp (.inl hq)
      rw [Function.update_self]
      cases hc with
      | user hm _ _ => rfl
      | kernel hm _ _ =>
        rw [hm] at hq
        cases hq
    · rw [hs.mode h' hh] at hq
      rw [Function.update_of_ne (hne h' q hh (.inl hq)), hs.registers h' hh, hs.pc h' hh]
      exact hi.running h' q hq
  · rw [hs.trapFrame] at hq
    by_cases hqp : q = p
    · subst hqp
      obtain rfl := Option.some.inj (hp.symm.trans hq)
      rw [Function.update_self]
      cases hc with
      | user hm _ _ => exact absurd hm (hrest h)
      | kernel hm _ _ => rfl
    · rw [Function.update_of_ne hqp, frame_congr (hfield q page' hq hqp)]
      refine hi.resting q page' hq fun h' hm => ?_
      by_cases hh : h' = h
      · subst hh
        obtain hon | hon := hon
        · exact hqp (Mode.user.inj (hm.symm.trans hon))
        · rw [hm] at hon
          cases hon
      · exact hrest h' ((hs.mode h' hh).trans hm)

/-- The kernel writes one field of the trap frame. -/
theorem Inv.setField (hi : Inv k s contexts) (hm : s.mode h = .kernel (some p))
    (hp : s.trapFrame p = some page) (f : Field) (value : Word) :
    Inv k (s.setField page f value)
      (Function.update contexts p ((s.setField page f value).frame page)) := by
  have hb : Beside s (s.setField page f value) h page :=
    ⟨fun _ _ => rfl, fun _ _ => rfl, fun _ _ => rfl, fun _ _ => rfl, rfl, rfl, rfl,
      fun q page' hq hne g => memory_setField_of_ne f value hne⟩
  obtain ⟨htp, hsatp⟩ := hi.kernel h _ hm
  exact hi.move (.inr hm) hp hb (.kernel hm htp hsatp)

theorem Inv.compute (hi : Inv k s contexts) (hm : s.mode h = .user p)
    (hp : s.trapFrame p = some page) {memory : Place → Word} (hkeeps : s.KeepsFrames memory)
    (registers : Register → Word) (pc : Word) :
    Inv k (s.withMachine h { s.machine h with registers := registers, pc := pc, memory := memory })
      (Function.update contexts p ⟨registers, pc⟩) := by
  obtain ⟨hsatp, hfilled⟩ := hi.user h p page hm hp
  have hcontrol : Function.update s.control h (s.control h) = s.control :=
    Function.update_eq_self h s.control
  have hc : Placed k (s.withMachine h
      { s.machine h with registers := registers, pc := pc, memory := memory }) h p page
      ⟨Function.update s.registers h registers h, Function.update s.pc h pc h⟩ := by
    refine .user hm ?_ (hfilled.congr fun f => hkeeps p page hp _ (offset_mem f))
    simp only [State.withMachine, State.machine, hcontrol]
    exact hsatp
  rw [Function.update_self, Function.update_self] at hc
  have hb : Beside s (s.withMachine h
      { s.machine h with registers := registers, pc := pc, memory := memory }) h page :=
    ⟨fun _ hne => Function.update_of_ne hne _ _, fun _ hne => Function.update_of_ne hne _ _,
      fun _ hne => Function.update_of_ne hne _ _, fun _ _ => rfl, rfl, rfl, rfl,
      fun q page' hq _ f => hkeeps q page' hq _ (offset_mem f)⟩
  exact hi.move (.inl hm) hp hb hc

/-- The state after a trap, where `uservec` has left the hart at `m`. -/
def State.trapped (s : State ι η) (h : η) (p : ι) (page : ℕ) (m : Machine Register Control Place) :
    State ι η :=
  ((s.withMachine h m).setField page .epc (m.control .sepc)).setMode h (.kernel (some p))

/-- The context goes from the registers to the trap frame. -/
theorem Inv.trap (hi : Inv k s contexts) (hm : s.mode h = .user p)
    (hp : s.trapFrame p = some page) {m : Machine Register Control Place}
    (he : Entered (s.trapping h) m (fun o => (page, o)) k.userret) :
    Inv k (s.trapped h p page m) contexts := by
  obtain ⟨-, hfilled⟩ := hi.user h p page hm hp
  have hframe : (s.trapped h p page m).frame page = contexts p := by
    rw [hi.running h p hm]
    simp only [State.frame, Context.mk.injEq]
    constructor
    · funext r
      exact (field_setField_of_ne (s := s.withMachine h m) _ (by simp)).trans (he.saved r)
    · refine (field_setField_self (s := s.withMachine h m) .epc _).trans (he.sepc.trans ?_)
      simp [State.trapping]
  have hc : Placed k (s.trapped h p page m) h p page ((s.trapped h p page m).frame page) := by
    refine .kernel (Function.update_self _ _ _) ?_ ?_
    · simp only [State.trapped, State.setMode, State.setField, State.withMachine,
        Function.update_self]
      exact he.tp.trans hfilled.hartid
    · simp only [State.trapped, State.setMode, State.setField, State.withMachine,
        Function.update_self]
      exact he.satp.trans hfilled.satp
  have hb : Beside s (s.trapped h p page m) h page :=
    ⟨fun _ hne => Function.update_of_ne hne _ _, fun _ hne => Function.update_of_ne hne _ _,
      fun _ hne => Function.update_of_ne hne _ _, fun _ hne => Function.update_of_ne hne _ _, rfl,
      rfl, rfl, fun q page' hq hne f =>
        (memory_setField_of_ne (s := s.withMachine h m) .epc (m.control .sepc) hne).trans
          (he.other (page', f.offset) fun r heq => hne (congrArg Prod.fst heq))⟩
  have hmove := hi.move (.inl hm) hp hb hc
  rwa [hframe, Function.update_eq_self] at hmove

omit [DecidableEq ι] [DecidableEq η] in
/-- The hart and its memory after `userret`. -/
theorem Inv.exec_userret (hi : Inv k s contexts) (hp : s.trapFrame p = some page) (h : η) : ∃ m,
    exec (translate (s.fillFrame k h p page).mmu) ((s.fillFrame k h p page).returning h p page)
        userret = some m ∧
      m.registers = (s.frame page).registers ∧ m.pc = (s.frame page).pc ∧
      m.memory = (s.fillFrame k h p page).memory ∧ m.control .satp = s.pageTable p := by
  have hmap : MapsFrame ((s.fillFrame k h p page).mmu
      (((s.fillFrame k h p page).returning h p page).registers .a0)) fun o => (page, o) := by
    refine UserContexts.mapsFrame ?_
    simp only [State.returning, Function.update_self]
    exact hi.maps p page hp
  obtain ⟨m, hexec, hregisters, hmemory, hcontrol, hpc⟩ := Assembly.exec_userret hmap
  refine ⟨m, hexec, funext fun r => ?_, ?_, hmemory, ?_⟩
  · exact (hregisters r).trans (field_fillFrame_of_register r)
  · rw [hpc]
    simp [State.returning, State.frame, State.fillFrame, field_setField_of_ne]
  · rw [hcontrol, Function.update_self]
    simp [State.returning, State.fillFrame, State.setField]

/-- The context goes from the trap frame to the registers. -/
theorem Inv.return (hi : Inv k s contexts) (hm : s.mode h = .kernel (some p))
    (hp : s.trapFrame p = some page) {m : Machine Register Control Place}
    (hregisters : m.registers = (s.frame page).registers) (hpc : m.pc = (s.frame page).pc)
    (hmemory : m.memory = (s.fillFrame k h p page).memory)
    (hsatp : m.control .satp = s.pageTable p) :
    Inv k (((s.fillFrame k h p page).withMachine h m).setMode h (.user p)) contexts := by
  obtain ⟨htp, hkernel⟩ := hi.kernel h _ hm
  have hc : Placed k (((s.fillFrame k h p page).withMachine h m).setMode h (.user p)) h p page
      ⟨Function.update s.registers h m.registers h, Function.update s.pc h m.pc h⟩ := by
    refine .user (Function.update_self _ _ _) ?_ ((filled_fillFrame htp hkernel).congr fun f => ?_)
    · simp only [State.setMode, State.withMachine, Function.update_self]
      exact hsatp
    · simp only [State.setMode, State.withMachine, State.field, hmemory]
  rw [Function.update_self, Function.update_self, hregisters, hpc] at hc
  have hb : Beside s (((s.fillFrame k h p page).withMachine h m).setMode h (.user p)) h page := by
    refine ⟨fun _ hne => Function.update_of_ne hne _ _, fun _ hne => Function.update_of_ne hne _ _,
      fun _ hne => Function.update_of_ne hne _ _, fun _ hne => Function.update_of_ne hne _ _, rfl,
      rfl, rfl, fun q page' hq hne f => ?_⟩
    simp only [State.setMode, State.withMachine, State.field, hmemory, State.fillFrame]
    rw [memory_setField_of_ne _ _ hne, memory_setField_of_ne _ _ hne,
      memory_setField_of_ne _ _ hne, memory_setField_of_ne _ _ hne]
  have hmove := hi.move (.inr hm) hp hb hc
  rwa [← hi.context hm hp, Function.update_eq_self] at hmove

omit [DecidableEq η] in
/-- A process that has just been allocated gets a context in its trap frame. -/
theorem Inv.init (hi : Inv k s contexts) {satp : Word} (hc : s.CanInit p page satp)
    (memory : Place → Word) (hother : ∀ a : Place, a.1 ≠ page → memory a = s.memory a) :
    Inv k { s.init p page satp with memory := memory }
      (Function.update contexts p (State.frame { s with memory := memory } page)) := by
  obtain ⟨hnone, hfree, htables⟩ := hc
  have hnot : ∀ h' q, s.On h' q → q ≠ p := by
    rintro h' q hq rfl
    obtain ⟨page', hpage⟩ := hi.framed h' q hq
    rw [hnone] at hpage
    cases hpage
  have hold : ∀ q, q ≠ p → (s.init p page satp).trapFrame q = s.trapFrame q := fun q hne =>
    Function.update_of_ne hne _ _
  have hnew : (s.init p page satp).trapFrame p = some page := Function.update_self _ _ _
  have hfield : ∀ q page', s.trapFrame q = some page' → ∀ f : Field,
      memory (page', f.offset) = s.field page' f := fun q page' hq f =>
    hother _ fun heq => hfree q (by rw [hq, ← heq])
  refine ⟨hi.once, fun h' q hq => ?_, fun q q' page' hq hq' => ?_, fun q page' hq => ?_, hi.kernel,
    fun h' q page' hq hpage => ?_, fun h' q hq => ?_, fun q page' hq hrest => ?_⟩
  · simp only [hold q (hnot h' q hq)]
    exact hi.framed h' q hq
  · simp only at hq hq'
    by_cases hqp : q = p <;> by_cases hqp' : q' = p
    · rw [hqp, hqp']
    · rw [hqp, hnew] at hq
      rw [hold q' hqp', ← hq] at hq'
      exact absurd hq' (hfree q')
    · rw [hqp', hnew] at hq'
      rw [hold q hqp, ← hq'] at hq
      exact absurd hq (hfree q)
    · rw [hold q hqp] at hq
      rw [hold q' hqp'] at hq'
      exact hi.apart q q' page' hq hq'
  · simp only [Option.mem_def] at hq
    by_cases hqp : q = p
    · rw [hqp, hnew] at hq
      obtain rfl := Option.some.inj hq
      rw [hqp]
      simpa [State.init] using htables
    · rw [hold q hqp] at hq
      simpa [State.init, Function.update_of_ne hqp] using hi.maps q page' hq
  · have hqp := hnot h' q (.inl hq)
    simp only [hold q hqp] at hpage
    obtain ⟨hsatp, hfilled⟩ := hi.user h' q page' hq hpage
    refine ⟨?_, hfilled.congr fun f => hfield q page' hpage f⟩
    simpa [State.init, Function.update_of_ne hqp] using hsatp
  · rw [Function.update_of_ne (hnot h' q (.inl hq))]
    exact hi.running h' q hq
  · simp only at hq
    by_cases hqp : q = p
    · rw [hqp, hnew] at hq
      obtain rfl := Option.some.inj hq
      rw [hqp, Function.update_self]
      rfl
    · rw [hold q hqp] at hq
      rw [Function.update_of_ne hqp, hi.resting q page' hq hrest]
      have hframe : State.frame { s with memory := memory } page' = s.frame page' :=
        frame_congr fun f => hfield q page' hq f
      exact hframe.symm

omit [DecidableEq η] in
theorem Inv.free (hi : Inv k s contexts) (ha : s.Away p) :
    Inv k { s with trapFrame := Function.update s.trapFrame p none } contexts := by
  have hnot : ∀ h' q, s.On h' q → q ≠ p := by
    rintro h' q (hq | hq) rfl
    · exact (ha h').1 hq
    · exact (ha h').2 hq
  have hold : ∀ q page', Function.update s.trapFrame p none q = some page' →
      s.trapFrame q = some page' := by
    intro q page' hq
    by_cases hqp : q = p
    · rw [hqp, Function.update_self] at hq
      cases hq
    · rwa [Function.update_of_ne hqp] at hq
  refine ⟨hi.once, fun h' q hq => ?_, fun q q' page' hq hq' => ?_, fun q page' hq => ?_, hi.kernel,
    fun h' q page' hq hpage => ?_, hi.running, fun q page' hq hrest => ?_⟩
  · simp only [Function.update_of_ne (hnot h' q hq)]
    exact hi.framed h' q hq
  · exact hi.apart q q' page' (hold q page' hq) (hold q' page' hq')
  · exact hi.maps q page' (hold q page' hq)
  · obtain ⟨hsatp, hfilled⟩ := hi.user h' q page' hq (hold q page' hpage)
    exact ⟨hsatp, hfilled.congr fun _ => rfl⟩
  · exact hi.resting q page' (hold q page' hq) hrest

omit [DecidableEq η] in
/-- The kernel changes the page table of the process for which it runs. -/
theorem Inv.setPageTable (hi : Inv k s contexts) (hm : s.mode h = .kernel (some p))
    (hp : s.trapFrame p = some page) {satp : Word}
    (ht : s.tables satp (trapframe >>> 12) = some page) :
    Inv k { s with pageTable := Function.update s.pageTable p satp } contexts := by
  refine ⟨hi.once, hi.framed, hi.apart, fun q page' hq => ?_, hi.kernel,
    fun h' q page' hq hpage => ?_, hi.running, hi.resting⟩
  · by_cases hqp : q = p
    · subst hqp
      obtain rfl := Option.some.inj (hp.symm.trans hq)
      simpa using ht
    · simpa [Function.update_of_ne hqp] using hi.maps q page' hq
  · have hqp : q ≠ p := by
      rintro rfl
      exact hi.not_user hm h' hq
    obtain ⟨hsatp, hfilled⟩ := hi.user h' q page' hq hpage
    exact ⟨by simpa [Function.update_of_ne hqp] using hsatp, hfilled.congr fun _ => rfl⟩

omit [DecidableEq ι] in
theorem Inv.kernelCode (hi : Inv k s contexts) {q : Option ι} (hm : s.mode h = .kernel q)
    {registers : Register → Word} {control : Control → Word} {memory : Place → Word}
    {tables : Word → Word → Option ℕ} (hkeeps : s.KeepsFrames memory)
    (hmaps : s.MapsFrames tables) (htp : registers .tp = s.registers h .tp)
    (hsatp : control .satp = s.control h .satp) :
    Inv k { s.withMachine h ⟨registers, control, memory, s.pc h⟩ with tables := tables }
      contexts := by
  have hfield : ∀ p page', s.trapFrame p = some page' → ∀ f : Field,
      memory (page', f.offset) = s.field page' f :=
    fun p page' hp f => hkeeps p page' hp _ (offset_mem f)
  have hne : ∀ h' p, s.mode h' = .user p → h' ≠ h := by
    rintro h' p hp rfl
    rw [hm] at hp
    cases hp
  refine ⟨hi.once, hi.framed, hi.apart, hmaps, fun h' p hp => ?_, fun h' p page' hp hpage => ?_,
    fun h' p hp => ?_, fun p page' hp hrest => ?_⟩
  · by_cases hh : h' = h
    · subst hh
      simpa [State.withMachine, htp, hsatp] using hi.kernel h' p hp
    · simpa [State.withMachine, Function.update_of_ne hh] using hi.kernel h' p hp
  · obtain ⟨hs, hfilled⟩ := hi.user h' p page' hp hpage
    refine ⟨?_, hfilled.congr fun f => hfield p page' hpage f⟩
    simpa [State.withMachine, Function.update_of_ne (hne h' p hp)] using hs
  · simpa [State.withMachine, Function.update_of_ne (hne h' p hp)] using hi.running h' p hp
  · rw [hi.resting p page' hp hrest]
    have hframe : State.frame { s with memory := memory } page' = s.frame page' :=
      frame_congr fun f => hfield p page' hp f
    exact hframe.symm

omit [DecidableEq ι] in
theorem Inv.switch (hi : Inv k s contexts) {q q' : Option ι} (hm : s.mode h = .kernel q)
    (haway : ∀ p ∈ q', s.Away p ∧ (s.trapFrame p).isSome) :
    Inv k (s.setMode h (.kernel q')) contexts := by
  have hself : (s.setMode h (.kernel q')).mode h = .kernel q' := Function.update_self _ _ _
  have hmode : ∀ h', h' ≠ h → (s.setMode h (.kernel q')).mode h' = s.mode h' := fun h' hne =>
    Function.update_of_ne hne _ _
  have huser : ∀ h' p, (s.setMode h (.kernel q')).mode h' = .user p ↔ s.mode h' = .user p := by
    intro h' p
    by_cases hh : h' = h
    · subst hh
      simp [hself, hm]
    · rw [hmode h' hh]
  have hon : ∀ h' p, (s.setMode h (.kernel q')).On h' p → (h' = h ∧ p ∈ q') ∨ s.On h' p := by
    rintro h' p (hp | hp)
    · exact .inr (.inl ((huser h' p).mp hp))
    · by_cases hh : h' = h
      · rw [hh, hself] at hp
        exact .inl ⟨hh, Mode.kernel.inj hp⟩
      · rw [hmode h' hh] at hp
        exact .inr (.inr hp)
  have hclash : ∀ h' p, p ∈ q' → ¬ s.On h' p := by
    rintro h' p hp (hon | hon)
    · exact ((haway p hp).1 h').1 hon
    · exact ((haway p hp).1 h').2 hon
  refine ⟨fun h₁ h₂ p h₁p h₂p => ?_, fun h' p hp => ?_, hi.apart, hi.maps, fun h' p hp => ?_,
    fun h' p page' hp hpage => ?_, fun h' p hp => hi.running h' p ((huser h' p).mp hp), fun p page' hp hrest =>
      hi.resting p page' hp fun h' hm' => hrest h' ((huser h' p).mpr hm')⟩
  · obtain ⟨hh₁, hp⟩ | h₁p := hon h₁ p h₁p
    · obtain ⟨hh₂, -⟩ | h₂p := hon h₂ p h₂p
      · exact hh₁.trans hh₂.symm
      · exact absurd h₂p (hclash h₂ p hp)
    · obtain ⟨-, hp⟩ | h₂p := hon h₂ p h₂p
      · exact absurd h₁p (hclash h₁ p hp)
      · exact hi.once h₁ h₂ p h₁p h₂p
  · obtain ⟨-, hp⟩ | hp := hon h' p hp
    · exact Option.isSome_iff_exists.mp (haway p hp).2
    · exact hi.framed h' p hp
  · by_cases hh : h' = h
    · subst hh
      exact hi.kernel h' q hm
    · rw [hmode h' hh] at hp
      exact hi.kernel h' p hp
  · obtain ⟨hsatp, hfilled⟩ := hi.user h' p page' ((huser h' p).mp hp) hpage
    exact ⟨hsatp, hfilled.congr fun _ => rfl⟩

omit [DecidableEq η] in
theorem Inv.fork (hi : Inv k s contexts) (hm : s.mode h = .kernel (some p))
    (hp : s.trapFrame p = some page) {child : ι} {new : ℕ} {satp : Word}
    (hc : s.CanInit child new satp) :
    Inv k (((s.init child new satp).copyFrame page new).setField new (.register .a0) 0)
      (Function.update contexts child { contexts p with
        registers := Function.update (contexts p).registers .a0 0 }) := by
  have hinit := hi.init hc
    (((s.init child new satp).copyFrame page new).setField new (.register .a0) 0).memory
    fun a ha => (memory_setField_of_ne _ _ ha).trans (memory_copyFrame_of_ne page ha)
  have hframe : (((s.init child new satp).copyFrame page new).setField new
      (.register .a0) 0).frame new = { contexts p with
        registers := Function.update (contexts p).registers .a0 0 } := by
    rw [frame_setRegister, hi.context hm hp]
    simp only [State.frame, field_copyFrame]
    rfl
  rw [← hframe]
  exact hinit

omit [DecidableEq η] in
theorem Inv.initFirstUser (hi : Inv k s contexts) {satp : Word} (hc : s.CanInit p page satp) :
    Inv k (((s.init p page satp).setField page .epc 0).setField page (.register .sp) pgsize)
      (Function.update contexts p
        ⟨Function.update (fun r => s.field page (.register r)) .sp pgsize, 0⟩) := by
  have hinit := hi.init hc
    (((s.init p page satp).setField page .epc 0).setField page (.register .sp) pgsize).memory
    fun a ha => (memory_setField_of_ne _ _ ha).trans (memory_setField_of_ne _ _ ha)
  have hframe : (((s.init p page satp).setField page .epc 0).setField page
      (.register .sp) pgsize).frame page =
      ⟨Function.update (fun r => s.field page (.register r)) .sp pgsize, 0⟩ := by
    rw [frame_setRegister, frame_setEpc]
    rfl
  rw [← hframe]
  exact hinit

theorem Inv.exec (hi : Inv k s contexts) (hm : s.mode h = .kernel (some p))
    (hp : s.trapFrame p = some page) {satp : Word}
    (ht : s.tables satp (trapframe >>> 12) = some page) (entry stackPointer : Word) :
    Inv k { ((s.setField page (.register .a1) stackPointer).setField page .epc entry).setField page
        (.register .sp) stackPointer with pageTable := Function.update s.pageTable p satp }
      (Function.update contexts p ⟨Function.update
        (Function.update (contexts p).registers .a1 stackPointer) .sp stackPointer, entry⟩) := by
  have hset := ((hi.setField hm hp (.register .a1) stackPointer).setField hm hp .epc
    entry).setField hm hp (.register .sp) stackPointer
  rw [Function.update_idem, Function.update_idem, frame_setRegister, frame_setEpc,
    frame_setRegister, ← hi.context hm hp] at hset
  exact hset.setPageTable hm hp ht

omit [DecidableEq ι] in
/-- A timer interrupt changes no register, neither of a program nor of the kernel. -/
theorem Inv.timer (hi : Inv k s contexts) (hr : s.TimerReady h) :
    ∃ m, RegisterMachine.exec (fun _ a => some (physical a)) (s.timed h) timervec = some m ∧
      Inv k (s.withMachine h m) contexts := by
  obtain ⟨hscratch, hcmp, hapart, hframes⟩ := hr
  have hmscratch : (s.timed h).control .mscratch = s.control h .mscratch := by
    simp [State.timed]
  have hmaps : Mapped (fun a => some (physical a)) ((s.timed h).control .mscratch) (s.scratch h)
      [0, 8, 16, 24, 32] := by
    rw [hmscratch]
    exact mapped_of_aligned physical_injective hscratch (by decide)
  have hplace : place (fun a => some (physical a)) ((s.timed h).memory (s.scratch h 24)) =
      some (physical (s.mtimecmp h)) := if_pos hcmp
  obtain ⟨m, hexec, hregisters, hcontrol, -, hother, hpc⟩ := exec_timervec (m := s.timed h)
    (fun _ a => some (physical a)) (fun _ _ => rfl) hmaps hplace hapart
  have hfield : ∀ p page, s.trapFrame p = some page → ∀ f : Field,
      (s.withMachine h m).field page f = s.field page f := fun p page hp f =>
    hother _ (fun heq => (hframes p page hp).1 (congrArg Prod.fst heq))
      fun o ho heq => (hframes p page hp).2 o ho (congrArg Prod.fst heq)
  have hr' : (s.withMachine h m).registers = s.registers := by
    simp [State.withMachine, hregisters, State.timed, State.machine]
  have hpc' : (s.withMachine h m).pc = s.pc := by
    simp [State.withMachine, hpc, State.timed]
  have hsatp : ∀ h', (s.withMachine h m).control h' .satp = s.control h' .satp := by
    intro h'
    by_cases hh : h' = h
    · subst hh
      simp [State.withMachine, hcontrol, State.timed]
    · simp [State.withMachine, Function.update_of_ne hh]
  refine ⟨m, hexec, hi.once, hi.framed, hi.apart, hi.maps, fun h' q hq => ?_,
    fun h' p page hp hpage => ?_, fun h' p hp => ?_, fun p page hp hrest => ?_⟩
  · rw [hr', hsatp]
    exact hi.kernel h' q hq
  · obtain ⟨hs, hfilled⟩ := hi.user h' p page hp hpage
    exact ⟨(hsatp h').trans hs, hfilled.congr (hfield p page hpage)⟩
  · rw [hr', hpc']
    exact hi.running h' p hp
  · rw [frame_congr (hfield p page hp)]
    exact hi.resting p page hp hrest

variable [Fintype ι] [Fintype η]

/-- A step keeps the invariant, with the contexts that it should leave. -/
theorem Inv.step (hi : Inv k s contexts) {e : Event ι η} (hs : step k s e = some s') :
    Inv k s' (after s contexts e) := by
  cases e with
  | compute h registers pc memory =>
    simp only [UserContexts.step] at hs
    split at hs
    next p hm =>
      split at hs
      next hkeeps =>
        obtain rfl := Option.some.inj hs
        obtain ⟨page, hp⟩ := hi.framed h p (.inl hm)
        simp only [after, hm]
        exact hi.compute hm hp hkeeps registers pc
      · cases hs
    · cases hs
  | trap h =>
    simp only [UserContexts.step] at hs
    split at hs
    next p hm =>
      obtain ⟨page, hp⟩ := hi.framed h p (.inl hm)
      obtain ⟨m, hexec, hentered⟩ := hi.exec_uservec hm hp
      simp only [State.trapping] at hexec
      simp only [hp, hexec, Option.bind_eq_bind, Option.bind_some, Option.some.injEq] at hs
      subst hs
      exact hi.trap hm hp hentered
    · cases hs
  | skipCall h =>
    obtain ⟨⟨p, page⟩, hc, hs⟩ := Option.bind_eq_some_iff.mp hs
    obtain rfl := Option.some.inj hs
    obtain ⟨hm, hp⟩ := current_eq_some.mp hc
    have hkeep := hi.setField hm hp .epc (s.field page .epc + 4)
    rw [frame_setEpc, ← hi.context hm hp] at hkeep
    simpa only [after, hm, hi.context hm hp, State.frame] using hkeep
  | result h value =>
    obtain ⟨⟨p, page⟩, hc, hs⟩ := Option.bind_eq_some_iff.mp hs
    obtain rfl := Option.some.inj hs
    obtain ⟨hm, hp⟩ := current_eq_some.mp hc
    have hkeep := hi.setField hm hp (.register .a0) value
    rw [frame_setRegister, ← hi.context hm hp] at hkeep
    simpa only [after, hm] using hkeep
  | fork h child new satp =>
    obtain ⟨⟨p, page⟩, hc, hs⟩ := Option.bind_eq_some_iff.mp hs
    obtain ⟨hm, hp⟩ := current_eq_some.mp hc
    simp only at hs
    split at hs
    next hinit =>
      obtain rfl := Option.some.inj hs
      simpa only [after, hm] using hi.fork hm hp hinit
    · cases hs
  | exec h satp entry stackPointer =>
    obtain ⟨⟨p, page⟩, hc, hs⟩ := Option.bind_eq_some_iff.mp hs
    obtain ⟨hm, hp⟩ := current_eq_some.mp hc
    simp only at hs
    split at hs
    next ht =>
      obtain rfl := Option.some.inj hs
      simpa only [after, hm] using hi.exec hm hp ht entry stackPointer
    · cases hs
  | initFirstUser p page satp =>
    simp only [UserContexts.step] at hs
    split at hs
    next hinit =>
      obtain rfl := Option.some.inj hs
      exact hi.initFirstUser hinit
    · cases hs
  | free p =>
    simp only [UserContexts.step] at hs
    split at hs
    next ha =>
      obtain rfl := Option.some.inj hs
      exact hi.free ha
    · cases hs
  | «return» h =>
    obtain ⟨⟨p, page⟩, hc, hs⟩ := Option.bind_eq_some_iff.mp hs
    obtain ⟨hm, hp⟩ := current_eq_some.mp hc
    obtain ⟨m, hexec, hregisters, hpc, hmemory, hsatp⟩ := hi.exec_userret hp h
    simp only [hexec, Option.bind_eq_bind, Option.bind_some, Option.some.injEq] at hs
    subst hs
    exact hi.return hm hp hregisters hpc hmemory hsatp
  | kernel h registers control memory tables =>
    simp only [UserContexts.step] at hs
    split at hs
    next q hm =>
      split at hs
      next hg =>
        obtain rfl := Option.some.inj hs
        obtain ⟨hkeeps, hmaps, htp, hsatp⟩ := hg
        exact hi.kernelCode hm hkeeps hmaps htp hsatp
      · cases hs
    · cases hs
  | timer h =>
    simp only [UserContexts.step] at hs
    split at hs
    next hr =>
      obtain ⟨m, hexec, hkeep⟩ := hi.timer hr
      rw [hexec] at hs
      obtain rfl := Option.some.inj hs
      exact hkeep
    · cases hs
  | switch h q' =>
    simp only [UserContexts.step] at hs
    split at hs
    next q hm =>
      split at hs
      next haway =>
        obtain rfl := Option.some.inj hs
        exact hi.switch hm haway
      · cases hs
    · cases hs

/-! ## Runs -/

/-- The harts have booted, and there is no process. -/
structure Booted (k : Kernel ι η) (s : State ι η) : Prop where
  mode : ∀ h, s.mode h = .kernel none
  tp : ∀ h, s.registers h .tp = k.hartid h
  satp : ∀ h, s.control h .satp = k.satp
  trapFrame : ∀ p, s.trapFrame p = none

omit [DecidableEq ι] [DecidableEq η] [Fintype ι] [Fintype η] in
theorem Booted.inv (hb : Booted k s) (contexts : ι → Context) : Inv k s contexts := by
  have hmode : ∀ h p, s.mode h ≠ .user p := fun h p hm => by
    rw [hb.mode h] at hm
    cases hm
  have hframe : ∀ p page, s.trapFrame p ≠ some page := fun p page hp => by
    rw [hb.trapFrame p] at hp
    cases hp
  have hon : ∀ h p, ¬ s.On h p := by
    rintro h p (hm | hm)
    · exact hmode h p hm
    · rw [hb.mode h] at hm
      cases hm
  exact ⟨fun h _ p hp => absurd hp (hon h p), fun h p hp => absurd hp (hon h p),
    fun p _ page hp => absurd hp (hframe p page), fun p page hp => absurd hp (hframe p page),
    fun h _ _ => ⟨hb.tp h, hb.satp h⟩, fun h p _ hm => absurd hm (hmode h p),
    fun h p hm => absurd hm (hmode h p), fun p page hp => absurd hp (hframe p page)⟩

variable {s₀ : State ι η} {contexts₀ : ι → Context} {es : List (Event ι η)}

theorem inv_run (hb : Booted k s₀) (hrun : run (seenStep k) (s₀, contexts₀) es = some (s, contexts)) :
    Inv k s contexts := by
  refine run_induction (P := fun _ (r : State ι η × (ι → Context)) => Inv k r.1 r.2)
    (hb.inv contexts₀) (fun _ r e r' _ hi hs => ?_) es (s, contexts) hrun
  obtain ⟨s', hs', rfl⟩ := Option.map_eq_some_iff.mp hs
  exact hi.step hs'

/-- In every run, a process in user mode has its context in the registers of its hart.
It can trap, and then the hart is at `usertrap` with the page table, the stack and the
number that are right there. A process in the kernel can be returned to user mode,
and it then has its context. -/
theorem contexts_preserved (hb : Booted k s₀)
    (hrun : run (seenStep k) (s₀, contexts₀) es = some (s, contexts)) :
    (∀ h p, s.mode h = .user p → contexts p = ⟨s.registers h, s.pc h⟩ ∧
      ∃ s', step k s (.trap h) = some s' ∧ s'.pc h = k.usertrap ∧
        s'.registers h .sp = k.stackTop p ∧ s'.registers h .tp = k.hartid h ∧
        s'.registers h .ra = k.userret ∧ s'.control h .satp = k.satp) ∧
    ∀ h p, s.mode h = .kernel (some p) → ∃ s', step k s (.return h) = some s' ∧
      s'.mode h = .user p ∧ contexts p = ⟨s'.registers h, s'.pc h⟩ ∧
      s'.control h .satp = s.pageTable p := by
  have hi := inv_run hb hrun
  refine ⟨fun h p hm => ⟨hi.running h p hm, ?_⟩, fun h p hm => ?_⟩
  · obtain ⟨page, hp⟩ := hi.framed h p (.inl hm)
    obtain ⟨hsatp, hfilled⟩ := hi.user h p page hm hp
    obtain ⟨m, hexec, he⟩ := hi.exec_uservec hm hp
    refine ⟨s.trapped h p page m, ?_, ?_⟩
    · simp only [State.trapping] at hexec
      simp only [step, hm, hp, hexec, Option.bind_eq_bind, Option.bind_some, State.trapped]
    · simp only [State.trapped, State.setMode, State.setField, State.withMachine,
        Function.update_self]
      exact ⟨he.pc.trans hfilled.trap, he.sp.trans hfilled.sp, he.tp.trans hfilled.hartid, he.ra,
        he.satp.trans hfilled.satp⟩
  · obtain ⟨page, hp⟩ := hi.framed h p (.inr hm)
    obtain ⟨m, hexec, hregisters, hpc, hmemory, hsatp⟩ := hi.exec_userret hp h
    have hc := current_eq_some.mpr ⟨hm, hp⟩
    refine ⟨((s.fillFrame k h p page).withMachine h m).setMode h (.user p), ?_,
      Function.update_self _ _ _, ?_, ?_⟩
    · simp only [step, hc, hexec, Option.bind_eq_bind, Option.bind_some]
    · simp only [State.setMode, State.withMachine, Function.update_self, hregisters, hpc]
      exact hi.context hm hp
    · simpa only [State.setMode, State.withMachine, Function.update_self] using hsatp

/-! ## Two processes on two harts -/

/-- Hart 0 enters user mode for the first time. The process forks, and the child returns
on hart 1. -/
def forked : List (Event (Fin 2) (Fin 2)) :=
  [.initFirstUser 0 7 7, .switch 0 (some 0), .return 0, .trap 0, .skipCall 0, .fork 0 1 8 8,
    .result 0 2, .switch 1 (some 1), .return 1, .return 0]

def kernel : Kernel (Fin 2) (Fin 2) := ⟨1, 2, 3, fun p => p.val + 4, fun h => h.val⟩

def booted : State (Fin 2) (Fin 2) where
  registers h r := if r = .tp then h.val else 0
  control _ c := if c = .satp then 1 else 0
  pc _ := 0
  mode _ := .kernel none
  memory _ := 0
  tables satp page := if page = trapframe >>> 12 then some satp.toNat else none
  trapFrame _ := none
  pageTable _ := 0

theorem booted_booted : Booted kernel booted :=
  ⟨fun _ => rfl, fun _ => rfl, fun _ => rfl, fun _ => rfl⟩

theorem contexts_preserved_fork : ∃ s contexts,
    run (seenStep kernel) (booted, fun _ => ⟨fun _ => 0, 0⟩) forked = some (s, contexts) ∧
      s.mode 1 = .user 1 ∧ contexts 1 = ⟨s.registers 1, s.pc 1⟩ := by
  have hrun : (run (seenStep kernel) (booted, fun _ => ⟨fun _ => 0, 0⟩) forked).any
      (fun r => r.1.mode 1 = .user 1) = true := by
    decide +kernel
  obtain ⟨⟨s, contexts⟩, hs, hmode⟩ := (Option.any_eq_true _ _).mp hrun
  have hmode : s.mode 1 = .user 1 := by simpa using hmode
  exact ⟨s, contexts, hs, hmode, ((contexts_preserved booted_booted hs).1 1 1 hmode).1⟩

end Zigmaos.UserContexts
