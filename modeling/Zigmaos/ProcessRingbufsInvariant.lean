import Zigmaos.ProcessMemoryInvariant
import Zigmaos.ProcessRingbufs
import Zigmaos.RingbufMappings

/-!
# What is mapped when a page table is freed

Besides the user pages of its size, the trampoline and the trapframe, a page
table maps the windows of the ring buffers that its process owns. `Process.free`
takes them away; `exec` does not, and neither does an open that fails halfway.
-/
namespace Zigmaos.ProcessRingbufs
open Memory
open Memory.PageTable (userPages)
open ProcessMemory (Slot InvariantBeside StepOkBeside)
open RingbufManager (allOwners ownedPlaces Owns Apart Agree Good Keeps CallOutcome Tidy ringbufSize)

/-- What the process in a slot maps beside its user pages. -/
def State.windows (s : State) (i : Slot) : ℕ → Prop :=
  RingbufManager.windows (allOwners s.ringbufs) i

structure Invariant (s : State) : Prop where
  memory : InvariantBeside s.windows s.memory
  apart : ∀ i : Slot, Apart (allOwners s.ringbufs) i
  count : ∀ i : Slot, (ownedPlaces (allOwners s.ringbufs) i).card ≤ (s.owned i).ownedRingbufsCount
  pages : ∀ i pages, (s.ringbufs i).pages = some pages → pages.buf.length = ringbufSize

variable {s s' : State} {i : Slot} {t : PageTable}

/-- The process in the slot owns no ring buffer. -/
def State.OwnsNone (s : State) (i : Slot) : Prop := ∀ x, ¬ Owns (allOwners s.ringbufs) i x

theorem ownsNone_iff : s.OwnsNone i ↔ ∀ w, ¬ s.windows i w := by
  constructor
  · intro h w ⟨x, hx, _⟩
    exact h x hx
  · intro h x hx
    refine h (allOwners s.ringbufs x).vbook ⟨x, hx, le_rfl, ?_⟩
    simp [RingbufManager.windowSize]

theorem okBeside_congr {W W' : ℕ → Prop} (hW : ∀ w, W' w ↔ W w) {p : ProcessMemory.Process}
    (h : p.OkBeside W) : p.OkBeside W' := by
  obtain rfl : W = W' := funext (fun w => propext (hW w).symm)
  exact h

/-! ## Calls of ring buffers -/

theorem Invariant.good (h : Invariant s) (memory : PhysicalMemory)
    (ht : (s.memory.processes i).pageTable = some t) :
    Good (userPages (s.memory.processes i).size) i (s.manager memory t) := by
  obtain ⟨hmapped, -, hbeside⟩ := (h.memory i).table t ht
  refine ⟨?_, hbeside, h.apart i, h.count i, h.pages⟩
  simpa only [State.manager, State.windows, ht, Option.getD_some] using hmapped

theorem Invariant.leave (h : Invariant s) {memory : PhysicalMemory}
    (ht : (s.memory.processes i).pageTable = some t) {r : RingbufManager.State Slot}
    (hr : Keeps (userPages (s.memory.processes i).size) i (s.manager memory t) r) :
    Invariant (s.leave i r) := by
  have hothers : ∀ j, j ≠ i → Agree j (allOwners s.ringbufs) (allOwners r.ringbufs) := hr.others
  have hp := h.memory i
  have hused : (s.memory.processes i).state ≠ .unused := by
    intro hs
    rw [(hp.unused hs).1] at ht
    exact absurd ht nofun
  refine ⟨fun j => ?_, fun j => ?_, fun j => ?_, hr.good.pages⟩
  · by_cases hj : j = i
    · subst hj
      simp only [State.leave, Function.update_self]
      refine ⟨fun hs => absurd hs hused, fun u hu => ?_, fun _ => rfl, hp.trapFrame, hp.zombie, hp.exec⟩
      obtain rfl := Option.some.inj hu
      exact ⟨hr.good.table, (hp.table t ht).2.1, hr.good.beside⟩
    · simp only [State.leave, Function.update_of_ne hj]
      exact okBeside_congr (fun w => (hothers j hj).windows_iff) (h.memory j)
  · by_cases hj : j = i
    · subst hj
      exact hr.good.apart
    · exact (hothers j hj).apart (h.apart j)
  · by_cases hj : j = i
    · subst hj
      simpa [State.leave] using hr.good.count
    · simp only [State.leave, Function.update_of_ne hj, (hothers j hj).ownedPlaces]
      exact h.count j

/-- The event comes to a state with `P`, or to a panic with `H`, or it is disabled. -/
def StepOutcome (H : Panic → Prop) (P : State → Prop) : Except Fault State → Prop
  | .error .disabled => True
  | .error (.panic p) => H p
  | .ok s => P s

theorem Invariant.call (h : Invariant s) (i : Slot) (memory : PhysicalMemory)
    (f : RingbufManager.State Slot → Except RingbufManager.Panic (RingbufManager.State Slot))
    (H : RingbufManager.Panic → Prop) (Q : RingbufManager.State Slot → Prop)
    (hf : ∀ t, (s.memory.processes i).pageTable = some t →
      CallOutcome H (fun r => Keeps (userPages (s.memory.processes i).size) i (s.manager memory t) r ∧
        Q r) (f (s.manager memory t))) :
    StepOutcome (fun p => (∀ q, p = .ringbuf q → H q) ∧ ∀ q, p ≠ .process (.memory q))
      (fun s' => Invariant s' ∧ ∃ r, Q r ∧ s'.ringbufs = r.ringbufs) (s.call i memory f) := by
  unfold State.call
  split
  · exact ⟨nofun, nofun⟩
  next t ht =>
    have hone := hf t ht
    cases hr : f (s.manager memory t) with
    | error p =>
      rw [hr] at hone
      refine ⟨fun q hq => ?_, nofun⟩
      obtain rfl := Panic.ringbuf.inj hq
      exact hone
    | ok r =>
      rw [hr] at hone
      exact ⟨h.leave ht hone.1, r, hone.2, rfl⟩

theorem StepOutcome.mono {H H' : Panic → Prop} {P P' : State → Prop} {r : Except Fault State}
    (h : StepOutcome H P r) (hH : ∀ p, H p → H' p) (hP : ∀ s, P s → P' s) : StepOutcome H' P' r := by
  cases r with
  | ok s => exact hP s h
  | error f =>
    cases f with
    | disabled => trivial
    | panic p => exact hH p h

theorem StepOutcome.bind {H : Panic → Prop} {P P' : State → Prop} {r : Except Fault State}
    {f : State → Except Fault State} (h : StepOutcome H P r)
    (hf : ∀ s, P s → StepOutcome H P' (f s)) : StepOutcome H P' (r >>= f) := by
  cases r with
  | ok s => exact hf s h
  | error f =>
    cases f with
    | disabled => trivial
    | panic p => exact h

theorem memory_eq_none {p : Panic} (hr : ∀ q, p = .ringbuf q → q.Elsewhere)
    (hp : ∀ q, p ≠ .process (.memory q)) : p.memory = none := by
  unfold Panic.memory
  split
  next q => exact absurd rfl (hp q)
  next q => exact absurd rfl (hr _ rfl q)
  · rfl

/-! ## Calls on memory -/

theorem processStep_spec (h : Invariant s) (event : ProcessMemory.Event)
    (hfrees : ∀ i, event.Frees i → s.OwnsNone i) :
    StepOutcome (fun p => p.memory = none)
      (fun s' => Invariant s' ∧ s'.ringbufs = s.ringbufs ∧ s'.owned = s.owned)
      (s.processStep event) := by
  have hone := ProcessMemory.step_stepOk h.memory event (fun i hi => ownsNone_iff.mp (hfrees i hi))
  unfold State.processStep
  split
  · trivial
  next p hp =>
    rw [hp] at hone
    obtain (hd | ⟨s', heq, -⟩) | ⟨j, p', -, heq, hnot⟩ := hone
    · exact absurd hd (by simp)
    · exact absurd heq nofun
    · obtain rfl : p = p' := by simpa using heq
      exact memory_eq_none nofun (fun q hq => hnot q (Panic.process.inj hq))
  next memory hm =>
    rw [hm] at hone
    obtain (hd | ⟨s', heq, hinv, -⟩) | ⟨j, p', -, heq, -⟩ := hone
    · exact absurd hd nofun
    · obtain rfl := Except.ok.inj heq
      exact ⟨⟨hinv, h.apart, h.count, h.pages⟩, rfl, rfl⟩
    · exact absurd heq nofun

theorem disownRingbufs_spec (h : Invariant s) (i : Slot) :
    StepOutcome (fun p => p.memory = none) (fun s' => Invariant s' ∧ s'.OwnsNone i)
      (s.disownRingbufs i) := by
  unfold State.disownRingbufs
  split
  · have hcall := h.call i (fun _ => 0) (·.disownAll i) RingbufManager.Panic.Elsewhere
      (fun r => ∀ x, ¬ Owns (allOwners r.ringbufs) i x)
      (fun t ht => RingbufManager.disownAll_spec (h.good _ ht))
    refine hcall.mono (fun p hp => memory_eq_none hp.1 hp.2) ?_
    intro s₁ ⟨hinv, r, hnone, heq⟩
    exact ⟨hinv, fun x hx => hnone x (heq ▸ hx)⟩
  next hzero =>
    refine ⟨h, fun x hx => ?_⟩
    have hcard := h.count i
    have hpos : 0 < (ownedPlaces (allOwners s.ringbufs) i).card :=
      Finset.card_pos.mpr ⟨x, Finset.mem_filter.mpr ⟨Finset.mem_univ x, hx⟩⟩
    omega

/-- `free` takes the ring buffers of the process away before its page table. -/
theorem free_spec (h : Invariant s) (i : Slot) :
    StepOutcome (fun p => p.memory = none) Invariant (s.free i) := by
  unfold State.free
  refine (disownRingbufs_spec h i).bind (fun s₁ ⟨hinv, hnone⟩ => ?_)
  have hreap := processStep_spec hinv (.reap i) (fun j hj => by
    obtain rfl : i = j := hj
    exact hnone)
  refine hreap.bind (fun s₂ ⟨hinv', hrings, howned⟩ => ?_)
  refine ⟨hinv'.memory, hinv'.apart, fun j => ?_, hinv'.pages⟩
  simp only
  by_cases hj : j = i
  · subst hj
    have hempty : ownedPlaces (allOwners s₂.ringbufs) j = ∅ :=
      Finset.filter_eq_empty_iff.mpr (fun x _ => hrings ▸ hnone x)
    rw [hempty, Finset.card_empty]
    exact Nat.zero_le _
  · rw [Function.update_of_ne hj]
    exact hinv'.count j

/-! ## Runs -/

/-- Where the code frees no page table with ring buffers in it: a process in
`exec` owns none, and no open fails once it has mapped pages. -/
def Event.Careful (s : State) : Event → Prop
  | .process (.execCommit i) => s.OwnsNone i
  | .openRingbuf i name address memory =>
    ∀ t, (s.memory.processes i).pageTable = some t → Tidy (s.manager memory t) i name address
  | _ => True

/-- A panic of `walk`, in an open. -/
def Event.Walks (event : Event) (p : Panic) : Prop :=
  ∀ q, p.memory = some q →
    q = .walk ∧ ∃ i name address memory, event = .openRingbuf i name address memory

theorem Event.walks_of_none (event : Event) {p : Panic} (h : p.memory = none) : event.Walks p := by
  intro q hq
  rw [h] at hq
  exact absurd hq nofun

theorem step_spec (h : Invariant s) {event : Event} (hcareful : event.Careful s) :
    StepOutcome event.Walks Invariant (step s event) := by
  have hprocess : ∀ event' : ProcessMemory.Event, (∀ i, event'.Frees i → s.OwnsNone i) →
      StepOutcome event.Walks Invariant (s.processStep event') := fun event' hfrees =>
    (processStep_spec h event' hfrees).mono (fun _ => event.walks_of_none) (fun _ hs => hs.1)
  unfold step
  split
  · split
    · exact (free_spec h _).mono (fun _ => Event.walks_of_none _) (fun _ => id)
    · trivial
  next event' hreap =>
    refine hprocess event' (fun i hi => ?_)
    cases event' with
    | execCommit j =>
      obtain rfl : j = i := hi
      exact hcareful
    | reap j => exact absurd rfl (hreap j)
    | _ => exact hi.elim
  next i name address memory =>
    split
    · have hcall := h.call i memory (fun r => (r.openRingbuf i name address).map Prod.snd)
        RingbufManager.Panic.Mapping (fun _ => True) (fun t ht =>
          (RingbufManager.openRingbuf_spec (h.good memory ht) (hcareful t ht)).map
            (fun _ hr => ⟨hr, trivial⟩))
      refine hcall.mono (fun p hp q hq => ⟨?_, i, name, address, memory, rfl⟩) (fun _ hs => hs.1)
      cases p with
      | process p =>
        cases p with
        | memory q' => exact absurd rfl (hp.2 q')
        | _ => exact absurd hq nofun
      | ringbuf p =>
        cases p with
        | memory q' => exact hp.1 _ rfl q (congrArg _ (Option.some.inj hq))
        | _ => exact absurd hq nofun
    · trivial
  next i name address memory =>
    split
    · have hcall := h.call i memory (fun r => (r.closeRingbuf i name address).map Prod.snd)
        RingbufManager.Panic.Elsewhere (fun _ => True) (fun t ht =>
          (RingbufManager.closeRingbuf_spec (h.good memory ht) name address).map
            (fun _ hr => ⟨hr, trivial⟩))
      exact hcall.mono (fun p hp => Event.walks_of_none _ (memory_eq_none hp.1 hp.2))
        (fun _ hs => hs.1)
    · trivial

/-- No process exists, and no ring buffer is active. -/
structure State.Initial (s : State) : Prop where
  memory : s.memory.Initial
  ringbufs : ∀ i, s.ringbufs i = .empty
  owned : ∀ i, s.owned i = .initial

theorem State.Initial.invariant (h : s.Initial) : Invariant s := by
  have hnone : ∀ i : Slot, s.OwnsNone i := by
    intro i x hx
    rw [Owns, allOwners, h.ringbufs] at hx
    cases hx
  refine ⟨fun i => ?_, fun i => ⟨?_, ?_, ?_, ?_⟩, fun i => ?_, fun i pages hp => ?_⟩
  · rw [h.memory i]
    exact (ProcessMemory.Process.okBeside_iff (ownsNone_iff.mp (hnone i))).mpr .of_unused
  · exact fun x hx => absurd hx (hnone i x)
  · exact fun x hx => absurd hx (hnone i x)
  · exact fun x y w hx _ => absurd hx (hnone i x)
  · exact fun j o o' hx _ => absurd hx (hnone i (j, o))
  · have hempty : ownedPlaces (allOwners s.ringbufs) i = ∅ :=
      Finset.filter_eq_empty_iff.mpr (fun x _ => hnone i x)
    rw [hempty, Finset.card_empty]
    exact Nat.zero_le _
  · rw [h.ringbufs] at hp
    cases hp

/-- The states that the events lead through, each of them careful. -/
def CarefulRun (s₀ : State) (events : List Event) : Prop :=
  ∀ es e s, es ++ [e] <+: events →
    Transition.run (fun s e => (step s e).toOption) s₀ es = some s → e.Careful s

theorem invariant_run {s₀ : State} {events : List Event} (h₀ : s₀.Initial)
    (hcareful : CarefulRun s₀ events)
    (hrun : Transition.run (fun s e => (step s e).toOption) s₀ events = some s) : Invariant s := by
  have hall : ∀ es s, Transition.run (fun s e => (step s e).toOption) s₀ es = some s →
      CarefulRun s₀ es → Invariant s := by
    apply Transition.run_induction (P := fun es s => CarefulRun s₀ es → Invariant s)
    · exact fun _ => h₀.invariant
    · intro es s e s' hes hP he hc
      have hinv := hP (fun es' e' t hp => hc es' e' t (hp.trans (List.prefix_append es [e])))
      have hone := step_spec hinv (hc es e s (List.prefix_refl _) hes)
      cases hs : step s e with
      | error f =>
        rw [hs] at he
        exact absurd he nofun
      | ok s'' =>
        rw [hs] at he hone
        obtain rfl := Option.some.inj he
        exact hone
  exact hall events s hrun hcareful

def boot : State :=
  ⟨⟨⟨List.range' 1 60, fun _ => false, 0⟩, 0, fun _ => .unused⟩, fun _ => .empty, fun _ => .initial⟩

theorem boot_initial : boot.Initial := ⟨fun _ => rfl, fun _ => rfl, fun _ => rfl⟩

def firstUser : Event := .process (.initFirstUser 0)

end Zigmaos.ProcessRingbufs
