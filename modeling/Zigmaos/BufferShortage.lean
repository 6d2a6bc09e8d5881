import Zigmaos.LoggedCacheSafety

/-!
# When the buffer cache runs dry

`get_buffer` panics where no buffer carries the block and all are referenced. A
buffer is referenced exactly while the log has it pinned or some process has it
locked, has chosen it or has not dropped it yet. So a run of the cache under the
log stays clear of the panic exactly if fewer than `NBUF` buffers are in use at
each `get_buffer` for a block that is not cached.
-/
namespace Zigmaos.BufferCache
open FileSystem RingList Finset

theorem Cache.getBuffer_eq_none_iff {c : Cache} {l : List BufferIndex} {block : DiskBlock}
    (hring : IsRing c.links l) (hmem : ∀ i, i ∈ l) :
    c.getBuffer block = none ↔ (∀ i, (c.bufferArray i).block ≠ block) ∧
      ∀ i, (c.bufferArray i).referenceCount ≠ 0 := by
  unfold Cache.getBuffer
  rw [hring.search_next (length_le hring), hring.search_previous (length_le hring)]
  constructor
  · intro hg
    split at hg
    · cases hg
    next hblock =>
      split at hg
      · cases hg
      next hzero =>
        refine ⟨fun i => ?_, fun i => ?_⟩
        · simpa using List.find?_eq_none.mp hblock i (hmem i)
        · simpa using List.find?_eq_none.mp hzero i (List.mem_reverse.mpr (hmem i))
  · intro ⟨hblock, hzero⟩
    have hnone : l.find? (fun i => decide ((c.bufferArray i).block = block)) = none :=
      List.find?_eq_none.mpr fun i _ => by simpa using hblock i
    have hfull : l.reverse.find? (fun i => decide ((c.bufferArray i).referenceCount = 0)) = none :=
      List.find?_eq_none.mpr fun i _ => by simpa using hzero i
    rw [hnone, hfull]

variable {π : Type}

/-- The buffer is pinned, locked, chosen or not yet dropped. -/
def State.InUse (s : State π) (i : BufferIndex) : Prop :=
  0 < s.pins i ∨ s.holder i ≠ none ∨ ∃ p, s.phase p = .waiting i ∨ s.phase p = .releasing i

instance [Fintype π] [DecidableEq π] (s : State π) : DecidablePred s.InUse := fun _ =>
  inferInstanceAs (Decidable (_ ∨ _ ∨ _))

variable [Fintype π] [DecidableEq π]

omit [DecidableEq π] in
theorem Invariant.inUse_iff {s : State π} {l : List BufferIndex} (h : Invariant s l)
    (i : BufferIndex) : s.InUse i ↔ (s.cache.bufferArray i).referenceCount ≠ 0 := by
  have hcount := h.count i
  have hholder : 0 < s.holders i ↔ s.holder i ≠ none := by
    unfold State.holders
    cases s.holder i <;> simp
  have hwaiting : 0 < s.waiters i ↔ ∃ p, s.phase p = .waiting i := by
    simp [State.waiters, card_pos, Finset.Nonempty]
  have hreleasing : 0 < s.releasers i ↔ ∃ p, s.phase p = .releasing i := by
    simp [State.releasers, card_pos, Finset.Nonempty]
  rw [State.InUse, exists_or, ← hholder, ← hwaiting, ← hreleasing]
  omega

/-- The buffers in use. -/
def State.inUse (s : State π) : Finset BufferIndex := univ.filter s.InUse

theorem Invariant.card_inUse_lt_iff {s : State π} {l : List BufferIndex} (h : Invariant s l) :
    s.inUse.card < nBuf ↔ ∃ i, (s.cache.bufferArray i).referenceCount = 0 := by
  have hall := card_lt_iff_ne_univ s.inUse
  rw [Fintype.card_fin] at hall
  rw [hall, Ne, eq_univ_iff_forall, not_forall]
  refine exists_congr fun i => ?_
  rw [State.inUse, mem_filter, h.inUse_iff i]
  simp

/-- `get_buffer` finds the block in a buffer, or a buffer that is not in use. -/
theorem Invariant.getBuffer_eq_none_iff {s : State π} {l : List BufferIndex} (h : Invariant s l)
    (block : DiskBlock) : s.cache.getBuffer block = none ↔
      ¬((∃ i, (s.cache.bufferArray i).block = block) ∨ s.inUse.card < nBuf) := by
  rw [Cache.getBuffer_eq_none_iff h.ring h.mem, h.card_inUse_lt_iff, not_or, not_exists, not_exists]

end Zigmaos.BufferCache

namespace Zigmaos.LoggedCache
open FileSystem BufferCache

section
variable {π : Type}

/-- `p` calls `get_buffer` for the block. -/
def State.Gets (s : State π) (p : π) (b : BufferCache.DiskBlock) : Prop :=
  s.reading p = none ∧ s.mayRead p b = true ∧ s.cache.phase p = .running

instance (s : State π) (p : π) (b : BufferCache.DiskBlock) : Decidable (s.Gets p b) :=
  inferInstanceAs (Decidable (_ ∧ _ ∧ _))

/-- The panic of `get_buffer`. -/
def panics (s : State π) : Event π → Bool
  | .read p b => decide (s.Gets p b) && (s.cache.cache.getBuffer b).isNone
  | _ => false

variable [Fintype π] [DecidableEq π]

/-- Where a block is asked for it is in a buffer, or not all buffers are in use. -/
def HasRoom (s : State π) : Event π → Prop
  | .read p b => s.Gets p b → (∃ i, s.block i = b) ∨ s.cache.inUse.card < nBuf
  | _ => True

theorem Invariant.panics_iff {s : State π} (h : Invariant s) (e : Event π) :
    panics s e = true ↔ ¬ HasRoom s e := by
  cases e with
  | read p b =>
    obtain ⟨l, hl⟩ := h.cache
    simp only [panics, HasRoom, Bool.and_eq_true, decide_eq_true_eq, Option.isNone_iff_eq_none,
      Classical.not_imp]
    exact and_congr_right' (hl.getBuffer_eq_none_iff b)
  | _ => simp [panics, HasRoom]

/-- `get_buffer` never panics in a run exactly if each call of it for a block that is
not cached comes while fewer than `NBUF` buffers are in use. -/
theorem never_dry_iff {s₀ : State π} (h₀ : s₀.Initial) {es : List (Event π)} {m : Option (State π)}
    (hrun : Transition.run (Transition.orPanic step panics) (some s₀) es = some m) :
    m ≠ none ↔ ∀ fs e s, fs ++ [e] <+: es →
      Transition.run (Transition.orPanic step panics) (some s₀) fs = some (some s) → HasRoom s e :=
  Transition.no_panic_iff h₀.invariant (fun _ _ _ h he => h.step he) (fun _ e h => h.panics_iff e)
    hrun

end

/-- The cache after `init_array`, an empty log, and 31 processes. -/
def crowd : State (Fin 31) where
  cache := .initial uninitialized
  data _ := fun _ => 5
  disk _ := fun _ => 0
  log := LogGroup.initial 30
  start := 2
  device := .rootFsDevice
  reading _ := none
  job _ := .idle
  contents _ := fun _ => 0
  modified _ := false
  copied := 0
  installed := 0

theorem crowd_initial : crowd.Initial where
  cache := ⟨_, invariant_initial uninitialized⟩
  phase _ := rfl
  holder _ := rfl
  used := by decide +kernel
  clean i hi := by
    have hnone : ∀ i, crowd.isValid i = false := by decide +kernel
    rw [hnone i] at hi
    cases hi
  size := by decide
  log := rfl
  reading _ := rfl
  job _ := rfl
  contents := rfl
  modified _ := rfl
  copied := rfl
  installed := rfl

/-- Process `p` reads a block of its own. -/
def readOwn (p : Fin 31) : Event (Fin 31) := .read p ⟨100 + p, .rootFsDevice⟩

/-- Two processes read a block each, and each finds a buffer. -/
theorem never_dry_crowd : ∃ m, Transition.run (Transition.orPanic step panics) (some crowd)
      [readOwn 0, readOwn 1] = some m ∧ m ≠ none ∧
    ∀ fs e s, fs ++ [e] <+: [readOwn 0, readOwn 1] →
      Transition.run (Transition.orPanic step panics) (some crowd) fs = some (some s) →
        HasRoom s e := by
  have h : (Transition.run (Transition.orPanic step panics) (some crowd)
      [readOwn 0, readOwn 1]).any Option.isSome = true := by
    decide +kernel
  obtain ⟨m, hm, hsome⟩ := (Option.any_eq_true _ _).mp h
  have hgoes := Option.isSome_iff_ne_none.mp hsome
  exact ⟨m, hm, hgoes, (never_dry_iff crowd_initial hm).mp hgoes⟩

/-- While 30 processes read a block each, which takes all buffers, another block is read. -/
theorem crowd_panics :
    Transition.run (Transition.orPanic step panics) (some crowd) ((List.finRange 31).map readOwn) =
      some none := by
  have h : (Transition.run (Transition.orPanic step panics) (some crowd)
      ((List.finRange 31).map readOwn)).any Option.isNone = true := by
    decide +kernel
  obtain ⟨m, hm, hnone⟩ := (Option.any_eq_true _ _).mp h
  rw [hm, Option.isNone_iff_eq_none.mp hnone]

end Zigmaos.LoggedCache
