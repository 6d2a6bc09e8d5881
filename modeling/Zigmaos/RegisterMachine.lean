import Mathlib
import Zigmaos.Transition

/-!
# A machine with registers and doublewords

Code that moves doublewords between registers, control registers and memory, up to
the jump that ends it. Where a virtual address lies depends on the control registers.
Code that faults has no result. Stores of many registers and loads of many registers
are one lemma each.
-/
namespace Zigmaos.RegisterMachine
open Transition

abbrev Word := BitVec 64

/-- `ρ` are the registers, `κ` the control registers. -/
inductive Instruction (ρ κ : Type)
  | store (source : ρ) (offset : ℕ) (base : ρ)
  | load (target : ρ) (offset : ℕ) (base : ρ)
  | loadImmediate (target : ρ) (value : Word)
  | addImmediate (target source : ρ) (value : Word)
  | add (target left right : ρ)
  | writeControl (control : κ) (source : ρ)
  | readControl (target : ρ) (control : κ)
  | swapControl (target : ρ) (control : κ) (source : ρ)
  | fence
  /-- Jump to the address in a register, the address of the next instruction in `link`. -/
  | jumpAndLink (link target : ρ) (next : Word)
  | jump (target : ρ)
  /-- Jump to a fixed address, as `jumpAndLink`. -/
  | call (link : ρ) (target next : Word)
  /-- Jump to the address that a trap has left in a control register. -/
  | trapReturn (control : κ)

/-- `α` are the places of memory. -/
structure Machine (ρ κ α : Type) where
  registers : ρ → Word
  control : κ → Word
  memory : α → Word
  pc : Word

variable {ρ κ α : Type} [DecidableEq ρ] [DecidableEq κ] [DecidableEq α]
  (locate : (κ → Word) → Word → Option α)

/-- The place of a doubleword, if its address is aligned and mapped. -/
def place {α : Type} (locate : Word → Option α) (address : Word) : Option α :=
  if address.toNat % 8 = 0 then locate address else none

def execute (m : Machine ρ κ α) : Instruction ρ κ → Option (Machine ρ κ α)
  | .store source offset base =>
    (place (locate m.control) (m.registers base + .ofNat 64 offset)).map fun a =>
      { m with memory := Function.update m.memory a (m.registers source) }
  | .load target offset base =>
    (place (locate m.control) (m.registers base + .ofNat 64 offset)).map fun a =>
      { m with registers := Function.update m.registers target (m.memory a) }
  | .loadImmediate target value =>
    some { m with registers := Function.update m.registers target value }
  | .addImmediate target source value =>
    some { m with registers := Function.update m.registers target (m.registers source + value) }
  | .add target left right =>
    some { m with
      registers := Function.update m.registers target (m.registers left + m.registers right) }
  | .writeControl control source =>
    some { m with control := Function.update m.control control (m.registers source) }
  | .readControl target control =>
    some { m with registers := Function.update m.registers target (m.control control) }
  | .swapControl target control source =>
    some { m with
      registers := Function.update m.registers target (m.control control)
      control := Function.update m.control control (m.registers source) }
  | .fence => some m
  | .jumpAndLink link target next =>
    some { m with registers := Function.update m.registers link next, pc := m.registers target }
  | .jump target => some { m with pc := m.registers target }
  | .call link target next =>
    some { m with registers := Function.update m.registers link next, pc := target }
  | .trapReturn control => some { m with pc := m.control control }

/-- The machine after a piece of code. -/
def exec (m : Machine ρ κ α) (code : List (Instruction ρ κ)) : Option (Machine ρ κ α) :=
  run (execute locate) m code

variable {locate} {m m' m₁ : Machine ρ κ α}

@[simp] theorem exec_nil : exec locate m [] = some m := rfl

theorem exec_cons (i : Instruction ρ κ) (code : List (Instruction ρ κ)) :
    exec locate m (i :: code) = (execute locate m i).bind (fun m => exec locate m code) :=
  run_cons i code

theorem exec_append {code₁ code₂ : List (Instruction ρ κ)} (h : exec locate m code₁ = some m₁) :
    exec locate m (code₁ ++ code₂) = exec locate m₁ code₂ :=
  run_append_of_eq h

/-! ## Saving and restoring registers -/

/-- One store for each register, at its offset. -/
def stores (base : ρ) (slots : List (ρ × ℕ)) : List (Instruction ρ κ) :=
  slots.map fun s => .store s.1 s.2 base

/-- One load for each register, from its offset. -/
def loads (base : ρ) (slots : List (ρ × ℕ)) : List (Instruction ρ κ) :=
  slots.map fun s => .load s.1 s.2 base

/-- The fields of a record at an address: `slot` says where each offset lies. -/
structure Mapped {α : Type} (locate : Word → Option α) (address : Word) (slot : ℕ → α)
    (offsets : List ℕ) : Prop where
  place : ∀ o ∈ offsets, RegisterMachine.place locate (address + .ofNat 64 o) = some (slot o)
  injective : ∀ o ∈ offsets, ∀ o' ∈ offsets, slot o = slot o' → o = o'

variable {slot : ℕ → α} {slots : List (ρ × ℕ)} {address : Word}

theorem Mapped.subset {α : Type} {locate : Word → Option α} {slot : ℕ → α}
    {offsets offsets' : List ℕ} (h : Mapped locate address slot offsets)
    (hsub : offsets' ⊆ offsets) : Mapped locate address slot offsets' :=
  ⟨fun o ho => h.place o (hsub ho), fun o ho o' ho' => h.injective o (hsub ho) o' (hsub ho')⟩

theorem Mapped.tail {α : Type} {locate : Word → Option α} {slot : ℕ → α} {offset : ℕ}
    {offsets : List ℕ} (h : Mapped locate address slot (offset :: offsets)) :
    Mapped locate address slot offsets :=
  h.subset (List.subset_cons_self offset offsets)

theorem aligned_add {a b : Word} (ha : a.toNat % 8 = 0) (hb : b.toNat % 8 = 0) :
    (a + b).toNat % 8 = 0 := by
  rw [BitVec.toNat_add]
  omega

/-- Records at aligned addresses, where different addresses are different places. -/
theorem mapped_of_aligned {α : Type} {f : Word → α} (hf : Function.Injective f)
    (ha : address.toNat % 8 = 0) {offsets : List ℕ} (ho : ∀ o ∈ offsets, o % 8 = 0 ∧ o < 256) :
    Mapped (fun a => some (f a)) address (fun o => f (address + .ofNat 64 o)) offsets := by
  refine ⟨fun o hmem => ?_, fun o hmem o' hmem' heq => ?_⟩
  · have hoffset : (BitVec.ofNat 64 o).toNat % 8 = 0 := by
      have := ho o hmem
      rw [BitVec.toNat_ofNat]
      omega
    rw [RegisterMachine.place, if_pos (aligned_add ha hoffset)]
  · have hoffsets : BitVec.ofNat 64 o = .ofNat 64 o' := by
      simpa using hf heq
    have h₁ := congrArg BitVec.toNat hoffsets
    have := ho o hmem
    have := ho o' hmem'
    rw [BitVec.toNat_ofNat, BitVec.toNat_ofNat] at h₁
    omega

/-- After the stores memory holds the registers, and is the same elsewhere. -/
theorem exec_stores (base : ρ) (hnodup : (slots.map Prod.snd).Nodup)
    (h : Mapped (locate m.control) (m.registers base) slot (slots.map Prod.snd)) :
    ∃ memory, exec locate m (stores base slots) = some { m with memory := memory } ∧
      (∀ s ∈ slots, memory (slot s.2) = m.registers s.1) ∧
      ∀ a, (∀ s ∈ slots, a ≠ slot s.2) → memory a = m.memory a := by
  induction slots generalizing m with
  | nil => exact ⟨m.memory, rfl, by simp, fun _ _ => rfl⟩
  | cons s slots ih =>
    obtain ⟨hs, hnodup⟩ := List.nodup_cons.mp hnodup
    have hplace : place (locate m.control) (m.registers base + .ofNat 64 s.2) = some (slot s.2) :=
      h.place s.2 (.head _)
    obtain ⟨memory, hexec, hsaved, hother⟩ :=
      ih (m := { m with memory := Function.update m.memory (slot s.2) (m.registers s.1) })
        hnodup h.tail
    refine ⟨memory, ?_, fun t ht => ?_, fun a ha => ?_⟩
    · rw [stores, List.map_cons, exec_cons, execute, hplace]
      exact hexec
    · obtain rfl | ht := List.mem_cons.mp ht
      · refine (hother _ fun t' ht' heq => ?_).trans (Function.update_self _ _ _)
        have hmem : t'.2 ∈ slots.map Prod.snd := List.mem_map_of_mem ht'
        rw [h.injective _ (.head _) _ (.tail _ hmem) heq] at hs
        exact hs hmem
      · exact hsaved t ht
    · exact (hother a fun t ht => ha t (.tail _ ht)).trans
        (Function.update_of_ne (ha s (.head _)) _ _)

/-- After the loads the registers hold what memory held. -/
theorem exec_loads (base : ρ) (hnodup : (slots.map Prod.fst).Nodup) (hbase : base ∉ slots.map Prod.fst)
    (h : Mapped (locate m.control) (m.registers base) slot (slots.map Prod.snd)) :
    ∃ registers, exec locate m (loads base slots) = some { m with registers := registers } ∧
      (∀ s ∈ slots, registers s.1 = m.memory (slot s.2)) ∧
      ∀ r ∉ slots.map Prod.fst, registers r = m.registers r := by
  induction slots generalizing m with
  | nil => exact ⟨m.registers, rfl, by simp, fun _ _ => rfl⟩
  | cons s slots ih =>
    obtain ⟨hs, hnodup⟩ := List.nodup_cons.mp hnodup
    obtain ⟨hne, hbase⟩ := not_or.mp (List.mem_cons.not.mp hbase)
    have hplace : place (locate m.control) (m.registers base + .ofNat 64 s.2) = some (slot s.2) :=
      h.place s.2 (.head _)
    have hkeep : Function.update m.registers s.1 (m.memory (slot s.2)) base = m.registers base :=
      Function.update_of_ne hne _ _
    obtain ⟨registers, hexec, hloaded, hother⟩ :=
      ih (m := { m with registers := Function.update m.registers s.1 (m.memory (slot s.2)) })
        hnodup hbase (by simp only [hkeep]; exact h.tail)
    refine ⟨registers, ?_, fun t ht => ?_, fun r hr => ?_⟩
    · rw [loads, List.map_cons, exec_cons, execute, hplace]
      exact hexec
    · obtain rfl | ht := List.mem_cons.mp ht
      · exact (hother _ hs).trans (Function.update_self _ _ _)
      · exact hloaded t ht
    · obtain ⟨hr, hrest⟩ := not_or.mp (List.mem_cons.not.mp hr)
      exact (hother r hrest).trans (Function.update_of_ne hr _ _)

end Zigmaos.RegisterMachine
