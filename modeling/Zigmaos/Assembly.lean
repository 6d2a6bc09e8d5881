import Zigmaos.RegisterMachine

/-!
# The assembly code of the kernel

`uservec` and `userret` of trampoline.S, `switchContext`, and `kernelvec` and
`timervec` of kernelvec.S, each with what it does to registers and memory. The
fetching of instructions is not modelled.
-/
namespace Zigmaos.Assembly
open RegisterMachine

/-- The registers of registers.zig, less `zero`. -/
inductive Register
  | ra | sp | gp | tp | t0 | t1 | t2 | s0 | s1 | a0 | a1 | a2 | a3 | a4 | a5 | a6 | a7
  | s2 | s3 | s4 | s5 | s6 | s7 | s8 | s9 | s10 | s11 | t3 | t4 | t5 | t6
  deriving DecidableEq

def Register.all : List Register :=
  [ra, sp, gp, tp, t0, t1, t2, s0, s1, a0, a1, a2, a3, a4, a5, a6, a7, s2, s3, s4, s5, s6, s7, s8,
    s9, s10, s11, t3, t4, t5, t6]

theorem Register.mem_all (r : Register) : r ∈ Register.all := by
  cases r <;> decide

instance : Fintype Register := Fintype.ofList Register.all Register.mem_all

inductive Control
  | satp | sscratch | sepc | mscratch | sip | mepc
  deriving DecidableEq

abbrev Code := List (Instruction Register Control)

/-! ## The trap frame -/

def pgsize : Word := 4096
def maxva : Word := 0x4000000000
def trampoline : Word := maxva - pgsize
def trapframe : Word := trampoline - pgsize

/-- The fields of `TrapFrame`. -/
inductive Field
  | kernelSatp | kernelSp | kernelTrap | epc | kernelHartid
  | register (r : Register)
  deriving DecidableEq

/-- A register's number, that of its entry in `UserRegister`. -/
def Register.number : Register → ℕ
  | ra => 1 | sp => 2 | gp => 3 | tp => 4 | t0 => 5 | t1 => 6 | t2 => 7 | s0 => 8 | s1 => 9
  | a0 => 10 | a1 => 11 | a2 => 12 | a3 => 13 | a4 => 14 | a5 => 15 | a6 => 16 | a7 => 17
  | s2 => 18 | s3 => 19 | s4 => 20 | s5 => 21 | s6 => 22 | s7 => 23 | s8 => 24 | s9 => 25
  | s10 => 26 | s11 => 27 | t3 => 28 | t4 => 29 | t5 => 30 | t6 => 31

/-- The place of a field in the struct: eight bytes each, the registers by their numbers. -/
def Field.offset : Field → ℕ
  | kernelSatp => 0
  | kernelSp => 8
  | kernelTrap => 16
  | epc => 24
  | kernelHartid => 32
  | register r => 8 * (r.number + 4)

def Field.all : List Field :=
  [kernelSatp, kernelSp, kernelTrap, epc, kernelHartid] ++ Register.all.map register

theorem Field.mem_all (f : Field) : f ∈ Field.all := by
  cases f with
  | register r => exact List.mem_append_right _ (List.mem_map_of_mem r.mem_all)
  | _ => simp [Field.all]

instance : Fintype Field := Fintype.ofList Field.all Field.mem_all

def Field.offsets : List ℕ := Field.all.map offset

/-! ## trampoline.S -/

/-- The offsets by which `uservec` stores and `userret` loads all registers but `a0`. -/
def savedRegisters : List (Register × ℕ) :=
  [(.ra, 40), (.sp, 48), (.gp, 56), (.tp, 64), (.t0, 72), (.t1, 80), (.t2, 88), (.s0, 96),
    (.s1, 104), (.a1, 120), (.a2, 128), (.a3, 136), (.a4, 144), (.a5, 152), (.a6, 160),
    (.a7, 168), (.s2, 176), (.s3, 184), (.s4, 192), (.s5, 200), (.s6, 208), (.s7, 216),
    (.s8, 224), (.s9, 232), (.s10, 240), (.s11, 248), (.t3, 256), (.t4, 264), (.t5, 272),
    (.t6, 280)]

/-- `userret` is the address of the code that follows. -/
def uservec (userret : Word) : Code :=
  ([.writeControl .sscratch .a0, .loadImmediate .a0 trapframe] : Code) ++
    (stores .a0 savedRegisters ++
      ([.readControl .t0 .sscratch, .store .t0 112 .a0, .load .sp 8 .a0, .load .tp 32 .a0,
        .load .t0 16 .a0, .load .t1 0 .a0, .fence, .writeControl .satp .t1, .fence,
        .jumpAndLink .ra .t0 userret] : Code))

def userret : Code :=
  ([.fence, .writeControl .satp .a0, .fence, .loadImmediate .a0 trapframe] : Code) ++
    (loads .a0 savedRegisters ++ ([.load .a0 112 .a0, .trapReturn .sepc] : Code))

/-- The page table in `satp` says where an address lies. -/
def translate {α : Type} (mmu : Word → Word → Option α) (control : Control → Word) :
    Word → Option α :=
  mmu (control .satp)

theorem savedRegisters_offset :
    ∀ s ∈ savedRegisters, s.2 = (Field.register s.1).offset := by
  decide +kernel

theorem mem_savedRegisters : ∀ r : Register, r ≠ .a0 →
    (r, (Field.register r).offset) ∈ savedRegisters := by
  decide +kernel

theorem offset_mem (f : Field) : f.offset ∈ Field.offsets :=
  List.mem_map_of_mem f.mem_all

theorem offset_injective : ∀ f g : Field, f.offset = g.offset → f = g := by
  decide +kernel

variable {α : Type} [DecidableEq α] {mmu : Word → Word → Option α}
  {m : Machine Register Control α} {slot : ℕ → α}

/-- What `uservec` leaves: the registers in the trap frame, and what the kernel
needs out of it. -/
structure Entered (m m' : Machine Register Control α) (slot : ℕ → α) (next : Word) : Prop where
  saved : ∀ r, m'.memory (slot (Field.register r).offset) = m.registers r
  other : ∀ a, (∀ r, a ≠ slot (Field.register r).offset) → m'.memory a = m.memory a
  sp : m'.registers .sp = m.memory (slot Field.kernelSp.offset)
  tp : m'.registers .tp = m.memory (slot Field.kernelHartid.offset)
  ra : m'.registers .ra = next
  satp : m'.control .satp = m.memory (slot Field.kernelSatp.offset)
  sepc : m'.control .sepc = m.control .sepc
  pc : m'.pc = m.memory (slot Field.kernelTrap.offset)

/-- The trap frame of a page table, field by field. -/
abbrev MapsFrame (locate : Word → Option α) (slot : ℕ → α) : Prop :=
  Mapped locate trapframe slot Field.offsets

omit [DecidableEq α] in
theorem MapsFrame.slot_ne {locate : Word → Option α} (h : MapsFrame locate slot) {f g : Field}
    (hne : f ≠ g) : slot f.offset ≠ slot g.offset := fun heq =>
  hne (offset_injective f g (h.injective _ (offset_mem f) _ (offset_mem g) heq))

/-- The part of `uservec` after the stores. -/
theorem exec_enter (next : Word) (ha : m.registers .a0 = trapframe)
    (h : MapsFrame (mmu (m.control .satp)) slot) :
    ∃ m', exec (translate mmu) m
        [.readControl .t0 .sscratch, .store .t0 112 .a0, .load .sp 8 .a0, .load .tp 32 .a0,
          .load .t0 16 .a0, .load .t1 0 .a0, .fence, .writeControl .satp .t1, .fence,
          .jumpAndLink .ra .t0 next] = some m' ∧
      m'.memory = Function.update m.memory (slot (Field.register .a0).offset)
        (m.control .sscratch) ∧
      m'.registers .sp = m.memory (slot Field.kernelSp.offset) ∧
      m'.registers .tp = m.memory (slot Field.kernelHartid.offset) ∧
      m'.registers .ra = next ∧ m'.control .satp = m.memory (slot Field.kernelSatp.offset) ∧
      m'.control .sepc = m.control .sepc ∧ m'.pc = m.memory (slot Field.kernelTrap.offset) := by
  have hplace : ∀ f : Field,
      place (mmu (m.control .satp)) (trapframe + .ofNat 64 f.offset) = some (slot f.offset) :=
    fun f => h.place _ (offset_mem f)
  have ha0 : place (mmu (m.control .satp)) (trapframe + .ofNat 64 112) = some (slot 112) :=
    hplace (.register .a0)
  have hsp : place (mmu (m.control .satp)) (trapframe + .ofNat 64 8) = some (slot 8) := hplace .kernelSp
  have htp : place (mmu (m.control .satp)) (trapframe + .ofNat 64 32) = some (slot 32) :=
    hplace .kernelHartid
  have ht0 : place (mmu (m.control .satp)) (trapframe + .ofNat 64 16) = some (slot 16) := hplace .kernelTrap
  have ht1 : place (mmu (m.control .satp)) trapframe = some (slot 0) := by
    simpa [Field.offset] using hplace .kernelSatp
  have hne : ∀ f : Field, f ≠ .register .a0 → slot f.offset ≠ slot 112 :=
    fun f hf => h.slot_ne hf
  have hne₁ : slot 8 ≠ slot 112 := hne .kernelSp (by decide)
  have hne₂ : slot 32 ≠ slot 112 := hne .kernelHartid (by decide)
  have hne₃ : slot 16 ≠ slot 112 := hne .kernelTrap (by decide)
  have hne₄ : slot 0 ≠ slot 112 := hne .kernelSatp (by decide)
  simp [exec_cons, execute, translate, Field.offset, Register.number, ha, ha0, hsp, htp, ht0, ht1,
    hne₁, hne₂, hne₃, hne₄]

omit [DecidableEq α] in
theorem MapsFrame.saved {locate : Word → Option α} (h : MapsFrame locate slot) :
    Mapped locate trapframe slot (savedRegisters.map Prod.snd) :=
  h.subset fun o ho => by
    obtain ⟨s, hs, rfl⟩ := List.mem_map.mp ho
    rw [savedRegisters_offset s hs]
    exact offset_mem _

theorem exec_uservec (next : Word) (h : MapsFrame (mmu (m.control .satp)) slot) :
    ∃ m', exec (translate mmu) m (uservec next) = some m' ∧ Entered m m' slot next := by
  have hstart : exec (translate mmu) m
      [.writeControl .sscratch .a0, .loadImmediate .a0 trapframe] = some { m with
        registers := Function.update m.registers .a0 trapframe
        control := Function.update m.control .sscratch (m.registers .a0) } := rfl
  obtain ⟨memory, hstores, hsaved, hother⟩ := exec_stores
    (m := { m with
      registers := Function.update m.registers .a0 trapframe
      control := Function.update m.control .sscratch (m.registers .a0) })
    .a0 (by decide : (savedRegisters.map Prod.snd).Nodup) (show Mapped (translate mmu _) _ slot _ from
      h.saved)
  obtain ⟨m', hexec, hmemory, hsp, htp, hra, hsatp, hsepc, hpc⟩ := exec_enter
    (m := { m with
      registers := Function.update m.registers .a0 trapframe
      control := Function.update m.control .sscratch (m.registers .a0)
      memory := memory }) next rfl h
  -- none of the fields that the kernel has filled in is stored to
  have hfield : ∀ f : Field, (∀ r, f ≠ .register r) → memory (slot f.offset) = m.memory (slot f.offset) :=
    fun f hf => hother _ fun s hs => by
      rw [savedRegisters_offset s hs]
      exact h.slot_ne (hf s.1)
  refine ⟨m', ?_, ⟨fun r => ?_, fun a ha => ?_, ?_, ?_, hra, ?_, hsepc, ?_⟩⟩
  · rw [uservec, exec_append hstart, exec_append hstores, hexec]
  · rw [hmemory]
    by_cases hr : r = .a0
    · rw [hr]
      exact Function.update_self _ _ _
    · rw [Function.update_of_ne (h.slot_ne (by simpa using hr))]
      have hr' := hsaved _ (mem_savedRegisters r hr)
      simpa [Function.update_of_ne hr] using hr'
  · rw [hmemory, Function.update_of_ne (ha .a0)]
    exact hother a fun s hs => by
      rw [savedRegisters_offset s hs]
      exact ha s.1
  · exact hsp.trans (hfield .kernelSp (by simp))
  · exact htp.trans (hfield .kernelHartid (by simp))
  · exact hsatp.trans (hfield .kernelSatp (by simp))
  · exact hpc.trans (hfield .kernelTrap (by simp))

theorem exec_userret (h : MapsFrame (mmu (m.registers .a0)) slot) :
    ∃ m', exec (translate mmu) m userret = some m' ∧
      (∀ r, m'.registers r = m.memory (slot (Field.register r).offset)) ∧
      m'.memory = m.memory ∧ m'.control = Function.update m.control .satp (m.registers .a0) ∧
      m'.pc = m.control .sepc := by
  have hstart : exec (translate mmu) m
      [.fence, .writeControl .satp .a0, .fence, .loadImmediate .a0 trapframe] = some { m with
        registers := Function.update m.registers .a0 trapframe
        control := Function.update m.control .satp (m.registers .a0) } := rfl
  obtain ⟨registers, hloads, hloaded, hother⟩ := exec_loads
    (m := { m with
      registers := Function.update m.registers .a0 trapframe
      control := Function.update m.control .satp (m.registers .a0) })
    .a0 (by decide : (savedRegisters.map Prod.fst).Nodup)
    (by decide : Register.a0 ∉ savedRegisters.map Prod.fst)
    (show Mapped (translate mmu _) _ slot _ from h.saved)
  have ha : registers .a0 = trapframe := hother .a0 (by decide)
  have hplace : place (mmu (m.registers .a0)) (trapframe + .ofNat 64 112) = some (slot 112) :=
    h.place _ (offset_mem (.register .a0))
  refine ⟨{ m with
      registers := Function.update registers .a0 (m.memory (slot 112))
      control := Function.update m.control .satp (m.registers .a0)
      pc := m.control .sepc }, ?_, fun r => ?_, rfl, rfl, rfl⟩
  · rw [userret, exec_append hstart, exec_append hloads]
    simp [exec_cons, execute, translate, ha, hplace]
  · by_cases hr : r = .a0
    · subst hr
      simp [Field.offset, Register.number]
    · exact (Function.update_of_ne hr _ _).trans (hloaded _ (mem_savedRegisters r hr))

/-! ## switchContext.S -/

/-- The offsets of the fields of `Context`, in the order of the instructions. -/
def contextRegisters : List (Register × ℕ) :=
  [(.ra, 0), (.sp, 8), (.s0, 16), (.s1, 24), (.s2, 32), (.s3, 40), (.s4, 48), (.s5, 56),
    (.s6, 64), (.s7, 72), (.s8, 80), (.s9, 88), (.s10, 96), (.s11, 104)]

def switchContext : Code :=
  stores .a0 contextRegisters ++ (loads .a1 contextRegisters ++ ([.jump .ra] : Code))

/-- The fields of a context struct. -/
abbrev MapsContext (locate : Word → Option α) (address : Word) (slot : ℕ → α) : Prop :=
  Mapped locate address slot (contextRegisters.map Prod.snd)

/-- The registers go to the old context and come from the new one, which is another. -/
theorem exec_switchContext {locate : (Control → Word) → Word → Option α} {new : ℕ → α}
    (h : MapsContext (locate m.control) (m.registers .a0) slot)
    (h' : MapsContext (locate m.control) (m.registers .a1) new)
    (hne : ∀ s ∈ contextRegisters, ∀ s' ∈ contextRegisters, new s.2 ≠ slot s'.2) :
    ∃ m', exec locate m switchContext = some m' ∧
      (∀ s ∈ contextRegisters, m'.memory (slot s.2) = m.registers s.1) ∧
      (∀ a, (∀ s ∈ contextRegisters, a ≠ slot s.2) → m'.memory a = m.memory a) ∧
      (∀ s ∈ contextRegisters, m'.registers s.1 = m.memory (new s.2)) ∧
      (∀ r ∉ contextRegisters.map Prod.fst, m'.registers r = m.registers r) ∧
      m'.control = m.control ∧ m'.pc = m.memory (new 0) := by
  obtain ⟨memory, hstores, hsaved, hother⟩ := exec_stores Register.a0
    (by decide : (contextRegisters.map Prod.snd).Nodup) h
  have hnew : ∀ s ∈ contextRegisters, memory (new s.2) = m.memory (new s.2) :=
    fun s hs => hother _ fun s' hs' => hne s hs s' hs'
  obtain ⟨registers, hloads, hloaded, hkept⟩ := exec_loads (m := { m with memory := memory }) .a1
    (by decide : (contextRegisters.map Prod.fst).Nodup) (by decide) h'
  refine ⟨{ m with registers := registers, memory := memory, pc := registers .ra }, ?_, hsaved,
    hother, fun s hs => (hloaded s hs).trans (hnew s hs), hkept, rfl, ?_⟩
  · rw [switchContext, exec_append hstores, exec_append hloads]
    rfl
  · exact (hloaded (.ra, 0) (by decide)).trans (hnew (.ra, 0) (by decide))

/-! ## kernelvec.S -/

/-- The offsets from the stack pointer by which `kernelvec` stores all registers. -/
def stackedRegisters : List (Register × ℕ) :=
  [(.ra, 0), (.sp, 8), (.gp, 16), (.tp, 24), (.t0, 32), (.t1, 40), (.t2, 48), (.s0, 56),
    (.s1, 64), (.a0, 72), (.a1, 80), (.a2, 88), (.a3, 96), (.a4, 104), (.a5, 112), (.a6, 120),
    (.a7, 128), (.s2, 136), (.s3, 144), (.s4, 152), (.s5, 160), (.s6, 168), (.s7, 176),
    (.s8, 184), (.s9, 192), (.s10, 200), (.s11, 208), (.t3, 216), (.t4, 224), (.t5, 232),
    (.t6, 240)]

/-- Those that are loaded after `sp`, `tp` not among them. -/
def unstackedRegisters : List (Register × ℕ) :=
  [(.gp, 16), (.t0, 32), (.t1, 40), (.t2, 48), (.s0, 56), (.s1, 64), (.a0, 72), (.a1, 80),
    (.a2, 88), (.a3, 96), (.a4, 104), (.a5, 112), (.a6, 120), (.a7, 128), (.s2, 136), (.s3, 144),
    (.s4, 152), (.s5, 160), (.s6, 168), (.s7, 176), (.s8, 184), (.s9, 192), (.s10, 200),
    (.s11, 208), (.t3, 216), (.t4, 224), (.t5, 232), (.t6, 240)]

/-- `kernelvec` to the call of `kerneltrap`; `next` is where that returns to. -/
def kernelvec (kerneltrap next : Word) : Code :=
  ([.addImmediate .sp .sp (-256)] : Code) ++
    (stores .sp stackedRegisters ++ ([.call .ra kerneltrap next] : Code))

/-- `kernelvec` after the call. -/
def kernelvecReturn : Code :=
  ([.load .ra 0 .sp, .load .sp 8 .sp] : Code) ++
    (loads .sp unstackedRegisters ++ ([.addImmediate .sp .sp 256, .trapReturn .sepc] : Code))

/-- The registers on the stack. -/
abbrev MapsStack (locate : Word → Option α) (address : Word) (slot : ℕ → α) : Prop :=
  Mapped locate address slot (stackedRegisters.map Prod.snd)

omit [DecidableEq α] in
theorem MapsStack.unstacked {locate : Word → Option α} {address : Word}
    (h : MapsStack locate address slot) :
    Mapped locate address slot (unstackedRegisters.map Prod.snd) :=
  h.subset (by decide)

theorem exec_kernelvec {locate : (Control → Word) → Word → Option α} (kerneltrap next : Word)
    (h : MapsStack (locate m.control) (m.registers .sp - 256) slot) :
    ∃ m', exec locate m (kernelvec kerneltrap next) = some m' ∧
      (∀ s ∈ stackedRegisters, s.1 ≠ .sp → m'.memory (slot s.2) = m.registers s.1) ∧
      m'.memory (slot 8) = m.registers .sp - 256 ∧
      (∀ a, (∀ s ∈ stackedRegisters, a ≠ slot s.2) → m'.memory a = m.memory a) ∧
      m'.registers .sp = m.registers .sp - 256 ∧ m'.registers .tp = m.registers .tp ∧
      m'.control = m.control ∧ m'.pc = kerneltrap := by
  have hstart : exec locate m [.addImmediate .sp .sp (-256)] = some { m with
      registers := Function.update m.registers .sp (m.registers .sp - 256) } := by
    simp [exec_cons, execute, sub_eq_add_neg]
  obtain ⟨memory, hstores, hsaved, hother⟩ := exec_stores
    (m := { m with registers := Function.update m.registers .sp (m.registers .sp - 256) }) .sp
    (by decide : (stackedRegisters.map Prod.snd).Nodup) (by simpa using h)
  refine ⟨{ m with
      registers := Function.update (Function.update m.registers .sp (m.registers .sp - 256)) .ra next
      memory := memory
      pc := kerneltrap }, ?_, fun s hs hne => ?_, ?_, hother, by simp, by simp, rfl, rfl⟩
  · rw [kernelvec, exec_append hstart, exec_append hstores]
    rfl
  · simpa [Function.update_of_ne hne] using hsaved s hs
  · simpa using hsaved (.sp, 8) (by decide)

theorem mem_stackedRegisters : ∀ r : Register, ∃ s ∈ stackedRegisters, s.1 = r := by
  decide +kernel

theorem mem_unstackedRegisters : ∀ s ∈ stackedRegisters, s.1 ≠ .sp → s.1 ≠ .tp → s.1 ≠ .ra →
    s ∈ unstackedRegisters := by
  decide +kernel

theorem exec_kernelvecReturn {locate : (Control → Word) → Word → Option α}
    {saved : Register → Word} (h : MapsStack (locate m.control) (m.registers .sp) slot)
    (hsaved : ∀ s ∈ stackedRegisters, s.1 ≠ .sp → m.memory (slot s.2) = saved s.1)
    (hsp : m.memory (slot 8) = m.registers .sp) :
    ∃ m', exec locate m kernelvecReturn = some m' ∧
      (∀ r, r ≠ .sp → r ≠ .tp → m'.registers r = saved r) ∧
      m'.registers .sp = m.registers .sp + 256 ∧ m'.registers .tp = m.registers .tp ∧
      m'.memory = m.memory ∧ m'.control = m.control ∧ m'.pc = m.control .sepc := by
  have hra : place (locate m.control) (m.registers .sp) = some (slot 0) := by
    simpa using h.place 0 (by decide)
  have hsp' : place (locate m.control) (m.registers .sp + .ofNat 64 8) = some (slot 8) :=
    h.place 8 (by decide)
  have hstart : exec locate m [.load .ra 0 .sp, .load .sp 8 .sp] = some { m with
      registers := Function.update (Function.update m.registers .ra (m.memory (slot 0))) .sp
        (m.registers .sp) } := by
    simp [exec_cons, execute, hra, hsp', hsp]
  obtain ⟨registers, hloads, hloaded, hkept⟩ := exec_loads
    (m := { m with
      registers := Function.update (Function.update m.registers .ra (m.memory (slot 0))) .sp
        (m.registers .sp) }) .sp
    (by decide : (unstackedRegisters.map Prod.fst).Nodup) (by decide)
    (by simpa using h.unstacked)
  refine ⟨{ m with
      registers := Function.update registers .sp (registers .sp + 256)
      pc := m.control .sepc }, ?_, fun r hne htp => ?_, ?_, ?_, rfl, rfl, rfl⟩
  · rw [kernelvecReturn, exec_append hstart, exec_append hloads]
    rfl
  · refine (Function.update_of_ne hne _ _).trans ?_
    obtain ⟨s, hs, rfl⟩ := mem_stackedRegisters r
    by_cases hr : s.1 = .ra
    · rw [hr, hkept .ra (by decide)]
      simpa [hr] using hsaved (.ra, 0) (by decide) (by decide)
    · exact (hloaded s (mem_unstackedRegisters s hs hne htp hr)).trans (hsaved s hs hne)
  · simp [hkept .sp (by decide)]
  · simp [hkept .tp (by decide)]

/-- The machine-mode timer interrupt. `mscratch` points to a scratch area of the hart:
three words for registers, the address of MTIMECMP and the interval. -/
def timervec : Code :=
  [.swapControl .a0 .mscratch .a0, .store .a1 0 .a0, .store .a2 8 .a0, .store .a3 16 .a0,
    .load .a1 24 .a0, .load .a2 32 .a0, .load .a3 0 .a1, .add .a3 .a3 .a2, .store .a3 0 .a1,
    .loadImmediate .a1 2, .writeControl .sip .a1, .load .a3 16 .a0, .load .a2 8 .a0,
    .load .a1 0 .a0, .swapControl .a0 .mscratch .a0, .trapReturn .mepc]

/-- A timer interrupt leaves all registers alone, and writes only to the scratch area
and to MTIMECMP. -/
theorem exec_timervec (locate : (Control → Word) → Word → Option α) {cmp : α}
    (hlocate : ∀ control control', locate control = locate control')
    (h : Mapped (locate m.control) (m.control .mscratch) slot [0, 8, 16, 24, 32])
    (hcmp : place (locate m.control) (m.memory (slot 24)) = some cmp)
    (hapart : ∀ o ∈ [0, 8, 16, 24, 32], cmp ≠ slot o) :
    ∃ m', exec locate m timervec = some m' ∧ m'.registers = m.registers ∧
      m'.control = Function.update m.control .sip 2 ∧
      m'.memory cmp = m.memory cmp + m.memory (slot 32) ∧
      (∀ a, a ≠ cmp → (∀ o ∈ [0, 8, 16], a ≠ slot o) → m'.memory a = m.memory a) ∧
      m'.pc = m.control .mepc := by
  obtain ⟨here, hhere⟩ : ∃ here, ∀ control, locate control = here :=
    ⟨_, fun control => hlocate control m.control⟩
  rw [hhere] at h hcmp
  have h0 : place here (m.control .mscratch) = some (slot 0) := by
    simpa using h.place 0 (by decide)
  have h8 : place here (m.control .mscratch + .ofNat 64 8) = some (slot 8) :=
    h.place 8 (by decide)
  have h16 : place here (m.control .mscratch + .ofNat 64 16) = some (slot 16) :=
    h.place 16 (by decide)
  have h24 : place here (m.control .mscratch + .ofNat 64 24) = some (slot 24) :=
    h.place 24 (by decide)
  have h32 : place here (m.control .mscratch + .ofNat 64 32) = some (slot 32) :=
    h.place 32 (by decide)
  have hslot : ∀ o ∈ [0, 8, 16, 24, 32], ∀ o' ∈ [0, 8, 16, 24, 32], o ≠ o' → slot o ≠ slot o' :=
    fun o ho o' ho' hne heq => hne (h.injective o ho o' ho' heq)
  have hapart' : ∀ o ∈ [0, 8, 16, 24, 32], slot o ≠ cmp := fun o ho => (hapart o ho).symm
  simp only [List.mem_cons, List.not_mem_nil, or_false, forall_eq_or_imp, forall_eq]
    at hapart hapart' hslot
  simp only [ne_eq, not_true_eq_false, false_implies] at hslot
  simp [timervec, exec_cons, execute, hhere, h0, h8, h16, h24, h32, hcmp, hapart, hapart', hslot]
  refine ⟨?_, ?_, fun a hcmp ha₀ ha₈ ha₁₆ => ?_⟩
  · funext r
    cases r <;> simp
  · funext c
    cases c <;> simp
  · rw [Function.update_of_ne hcmp, Function.update_of_ne ha₁₆, Function.update_of_ne ha₈,
      Function.update_of_ne ha₀]

end Zigmaos.Assembly
