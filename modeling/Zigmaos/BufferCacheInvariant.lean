import Zigmaos.BufferCache

/-!
# The buffer cache keeps its buffers in order

The links spell a list of all buffers in which those released later come first,
and of the buffers that carry the same block only the first can have been
returned. So two referenced buffers never carry the same block, and the buffer
recycled is the one released longest ago.
-/
namespace Zigmaos.BufferCache
open FileSystem RingList Finset

namespace Cache
variable {c c' : Cache} {l : List BufferIndex} {i : BufferIndex} {block : DiskBlock}

@[simp, grind =] theorem setBuffer_bufferArray (b : Buffer) (j : BufferIndex) :
    (c.setBuffer i b).bufferArray j = if j = i then b else c.bufferArray j := by
  simp [setBuffer, Function.update_apply]

@[simp, grind =] theorem setBuffer_links (b : Buffer) : (c.setBuffer i b).links = c.links := rfl

@[grind =] theorem initBuffer_bufferArray (j : BufferIndex) :
    (c.initBuffer i).bufferArray j =
      if j = i then ⟨false, .empty, 0⟩ else c.bufferArray j := setBuffer_bufferArray _ j

theorem length_le (h : IsRing c.links l) : l.length < nBuf + 1 := by
  have := h.nodup.length_le_card
  rw [Fintype.card_fin] at this
  omega

/-- `get_buffer` takes the first buffer that carries the block, else the last
one that nothing references. -/
theorem getBuffer_cases (hring : IsRing c.links l) (hmem : ∀ j, j ∈ l)
    (hg : c.getBuffer block = some (i, c')) :
    ∃ l₁ l₂, l = l₁ ++ i :: l₂ ∧
      (((c.bufferArray i).block = block ∧ (∀ j ∈ l₁, (c.bufferArray j).block ≠ block) ∧
        c' = c.setBuffer i { c.bufferArray i with
          referenceCount := (c.bufferArray i).referenceCount + 1 }) ∨
       ((∀ j, (c.bufferArray j).block ≠ block) ∧ (c.bufferArray i).referenceCount = 0 ∧
        (∀ j ∈ l₂, (c.bufferArray j).referenceCount ≠ 0) ∧
        c' = c.setBuffer i ⟨false, block, 1⟩)) := by
  unfold getBuffer at hg
  rw [hring.search_next (length_le hring), hring.search_previous (length_le hring)] at hg
  split at hg
  next j hfind =>
    obtain ⟨rfl, rfl⟩ := Prod.mk.inj (Option.some.inj hg)
    obtain ⟨hblock, l₁, l₂, rfl, hbefore⟩ := List.find?_eq_some_iff_append.mp hfind
    refine ⟨l₁, l₂, rfl, .inl ⟨by simpa using hblock, fun k hk => ?_, rfl⟩⟩
    simpa using hbefore k hk
  next hnone =>
    split at hg
    next j hfind =>
      obtain ⟨rfl, rfl⟩ := Prod.mk.inj (Option.some.inj hg)
      obtain ⟨hzero, l₂, l₁, hl, hafter⟩ := List.find?_eq_some_iff_append.mp hfind
      refine ⟨l₁.reverse, l₂.reverse, ?_, .inr ⟨fun k => ?_, by simpa using hzero, fun k hk => ?_,
        rfl⟩⟩
      · rw [← List.reverse_reverse l, hl]
        simp
      · simpa using List.find?_eq_none.mp hnone k (hmem k)
      · simpa using hafter k (List.mem_reverse.mp hk)
    · cases hg

end Cache

variable {π : Type} [DecidableEq π] [Fintype π]

/-- The links spell `l`, and what is known of the buffers in that order. -/
structure Invariant (s : State π) (l : List BufferIndex) : Prop where
  ring : IsRing s.cache.links l
  mem : ∀ i, i ∈ l
  order : l.Pairwise (fun i j => s.lastDrop j < s.lastDrop i ∨
    (s.lastDrop i = 0 ∧ s.lastDrop j = 0 ∧ j < i))
  blocks : l.Pairwise (fun i j => (s.cache.bufferArray i).block = (s.cache.bufferArray j).block →
    s.returned j = false)
  count : ∀ i, (s.cache.bufferArray i).referenceCount =
    s.holders i + s.waiters i + s.releasers i + s.pins i
  unused : ∀ i, s.returned i = false → (s.cache.bufferArray i).referenceCount = 0
  drops : ∀ i, s.lastDrop i ≤ s.drops

theorem card_update {β : Type*} [DecidableEq β] (f : π → β) (p : π) (a b : β) :
    (univ.filter (fun q => Function.update f p a q = b)).card + (if f p = b then 1 else 0) =
      (univ.filter (fun q => f q = b)).card + (if a = b then 1 else 0) := by
  simp only [card_filter]
  rw [← add_sum_erase univ _ (mem_univ p), ← add_sum_erase univ (fun q => if f q = b then 1 else 0)
    (mem_univ p), Function.update_self]
  have hrest : ∑ q ∈ univ.erase p, (if Function.update f p a q = b then 1 else 0) =
      ∑ q ∈ univ.erase p, if f q = b then 1 else 0 :=
    sum_congr rfl (fun q hq => by rw [Function.update_of_ne (ne_of_mem_erase hq)])
  omega

theorem waiters_setPhase (s : State π) (p : π) (f : Phase) (i : BufferIndex) :
    (s.setPhase p f).waiters i + (if s.phase p = .waiting i then 1 else 0) =
      s.waiters i + (if f = .waiting i then 1 else 0) :=
  card_update s.phase p f (.waiting i)

theorem releasers_setPhase (s : State π) (p : π) (f : Phase) (i : BufferIndex) :
    (s.setPhase p f).releasers i + (if s.phase p = .releasing i then 1 else 0) =
      s.releasers i + (if f = .releasing i then 1 else 0) :=
  card_update s.phase p f (.releasing i)

omit [DecidableEq π] in
theorem Invariant.count_pos {s : State π} {l : List BufferIndex} (h : Invariant s l)
    {i : BufferIndex} (hpos : 0 < s.holders i + s.waiters i + s.releasers i + s.pins i) :
    0 < (s.cache.bufferArray i).referenceCount ∧ s.returned i = true := by
  have hc := h.count i
  have hu := h.unused i
  refine ⟨by omega, ?_⟩
  by_contra hr
  have := hu (by simpa using hr)
  omega

omit [DecidableEq π] in
theorem Invariant.block_ne {s : State π} {l : List BufferIndex} (h : Invariant s l)
    {i j : BufferIndex} (hi : s.returned i = true) (hij : j ≠ i)
    (hblock : (s.cache.bufferArray i).block = (s.cache.bufferArray j).block) :
    s.returned j = false := by
  obtain ⟨l₁, l₂, rfl⟩ := List.append_of_mem (h.mem i)
  obtain ⟨-, h₂, h₁⟩ := List.pairwise_append.mp h.blocks
  obtain hj | hj | hj : j ∈ l₁ ∨ j = i ∨ j ∈ l₂ := by simpa using h.mem j
  · have := h₁ j hj i List.mem_cons_self hblock.symm
    simp_all
  · exact absurd hj hij
  · exact (List.pairwise_cons.mp h₂).1 j hj hblock

theorem Invariant.getBuffer {s : State π} {l : List BufferIndex} (h : Invariant s l) {p : π}
    {block : DiskBlock} {i : BufferIndex} {c : Cache} (hrun : s.phase p = .running)
    (hg : s.cache.getBuffer block = some (i, c)) :
    Invariant { s.setPhase p (.waiting i) with
      cache := c
      returned := Function.update s.returned i true } l := by
  obtain ⟨l₁, l₂, rfl, hcases⟩ := Cache.getBuffer_cases h.ring h.mem hg
  have hlinks : c.links = s.cache.links := by
    obtain ⟨-, -, rfl⟩ | ⟨-, -, -, rfl⟩ := hcases <;> rfl
  have hcount : ∀ j, (c.bufferArray j).referenceCount =
      (s.cache.bufferArray j).referenceCount + if i = j then 1 else 0 := by
    intro j
    obtain ⟨-, -, rfl⟩ | ⟨-, hzero, -, rfl⟩ := hcases <;> grind
  have hother : ∀ j, j ≠ i → (c.bufferArray j).block = (s.cache.bufferArray j).block := by
    intro j hj
    obtain ⟨-, -, rfl⟩ | ⟨-, -, -, rfl⟩ := hcases <;> grind
  have hbefore : ∀ j ∈ l₁, (c.bufferArray j).block ≠ (c.bufferArray i).block := by
    intro j hj
    have hnodup := h.ring.nodup
    obtain ⟨hblock, hb, rfl⟩ | ⟨hb, -, -, rfl⟩ := hcases <;> grind
  have hafter : ∀ j ∈ l₂, (c.bufferArray i).block = (c.bufferArray j).block →
      (s.cache.bufferArray i).block = (s.cache.bufferArray j).block := by
    intro j hj
    have hnodup := h.ring.nodup
    obtain ⟨hblock, -, rfl⟩ | ⟨hb, -, -, rfl⟩ := hcases <;> grind
  have hnodup := h.ring.nodup
  constructor
  case ring => exact hlinks ▸ h.ring
  case mem => exact h.mem
  case order => exact h.order
  case blocks =>
    obtain ⟨h₁, h₂, h₁₂⟩ := List.pairwise_append.mp h.blocks
    obtain ⟨hi, h₂⟩ := List.pairwise_cons.mp h₂
    have hne₁ : ∀ j ∈ l₁, j ≠ i := by grind
    have hne₂ : ∀ j ∈ l₂, j ≠ i := by grind
    refine List.pairwise_append.mpr ⟨?_, List.pairwise_cons.mpr ⟨?_, ?_⟩, ?_⟩
    · refine h₁.imp_of_mem (fun {j k} hj hk hjk => ?_)
      grind [Function.update_apply]
    · intro j hj
      grind [Function.update_apply]
    · refine h₂.imp_of_mem (fun {j k} hj hk hjk => ?_)
      grind [Function.update_apply]
    · intro j hj k hk
      have := h₁₂ j hj k hk
      grind [Function.update_apply]
  case count =>
    intro j
    have hc := h.count j
    have hw := waiters_setPhase s p (.waiting i) j
    have hr := releasers_setPhase s p (.waiting i) j
    simp only [hcount, State.waiters, State.releasers, State.holders, State.setPhase] at *
    grind
  case unused =>
    intro j hj
    have := h.unused j
    have := hcount j
    grind [Function.update_apply]
  case drops => exact h.drops

theorem Invariant.acquire {s : State π} {l : List BufferIndex} (h : Invariant s l) {p : π}
    {i : BufferIndex} (hp : s.phase p = .waiting i) (hfree : s.holder i = none) :
    Invariant { s.setPhase p .running with
      holder := Function.update s.holder i (some p) } l := by
  refine ⟨h.ring, h.mem, h.order, h.blocks, fun j => ?_, h.unused, h.drops⟩
  have hc := h.count j
  have hw := waiters_setPhase s p .running j
  have hr := releasers_setPhase s p .running j
  simp only [State.waiters, State.releasers, State.holders, State.setPhase,
    Function.update_apply] at *
  grind

theorem Invariant.release {s : State π} {l : List BufferIndex} (h : Invariant s l) {p : π}
    {i : BufferIndex} (hp : s.phase p = .running) (hheld : s.holder i = some p) :
    Invariant { s.setPhase p (.releasing i) with
      holder := Function.update s.holder i none } l := by
  refine ⟨h.ring, h.mem, h.order, h.blocks, fun j => ?_, h.unused, h.drops⟩
  have hc := h.count j
  have hw := waiters_setPhase s p (.releasing i) j
  have hr := releasers_setPhase s p (.releasing i) j
  simp only [State.waiters, State.releasers, State.holders, State.setPhase,
    Function.update_apply] at *
  grind

omit [DecidableEq π] in
theorem Invariant.pin {s : State π} {l : List BufferIndex} (h : Invariant s l) {i : BufferIndex}
    (hi : s.returned i = true) :
    Invariant { s with
      cache := s.cache.pin i
      pins := Function.update s.pins i (s.pins i + 1) } l := by
  have hblock : ∀ j, ((s.cache.pin i).bufferArray j).block = (s.cache.bufferArray j).block := by
    grind [Cache.pin]
  refine ⟨h.ring, h.mem, h.order, ?_, fun j => ?_, fun j hj => ?_, h.drops⟩
  · simpa only [hblock] using h.blocks
  · have hc := h.count j
    simp only [State.waiters, State.releasers, State.holders, Function.update_apply] at *
    grind [Cache.pin]
  · have := h.unused j
    grind [Cache.pin]

omit [DecidableEq π] in
theorem Invariant.unpin {s : State π} {l : List BufferIndex} (h : Invariant s l) {i : BufferIndex}
    (hi : 0 < s.pins i) :
    Invariant { s with
      cache := s.cache.unpin i
      pins := Function.update s.pins i (s.pins i - 1) } l := by
  have hpos := h.count_pos (i := i) (by omega)
  have hsub := sub32_of_le hpos.1
  have hblock : ∀ j, ((s.cache.unpin i).bufferArray j).block = (s.cache.bufferArray j).block := by
    grind [Cache.unpin]
  refine ⟨h.ring, h.mem, h.order, ?_, fun j => ?_, fun j hj => ?_, h.drops⟩
  · simpa only [hblock] using h.blocks
  · have hc := h.count j
    simp only [State.waiters, State.releasers, State.holders, Function.update_apply] at *
    grind [Cache.unpin]
  · have := h.unused j
    grind [Cache.unpin]

theorem Invariant.drop {s : State π} {l : List BufferIndex} (h : Invariant s l) {p : π}
    {i : BufferIndex} (hp : s.phase p = .releasing i)
    (hlast : ((s.cache.drop i).bufferArray i).referenceCount ≠ 0) :
    Invariant { s.setPhase p .running with cache := s.cache.drop i } l := by
  have hrel : 0 < s.releasers i := card_pos.mpr ⟨p, by simp [hp]⟩
  have hpos := h.count_pos (i := i) (by omega)
  have hsub := sub32_of_le hpos.1
  have hbuffers : (s.cache.drop i).bufferArray = (s.cache.unpin i).bufferArray := by
    unfold Cache.drop
    simp only
    split <;> rfl
  have hlinks : (s.cache.drop i).links = s.cache.links := by
    rw [hbuffers] at hlast
    unfold Cache.drop
    simp only
    rw [if_neg (by simpa [Cache.unpin] using hlast)]
    rfl
  have hblock : ∀ j, ((s.cache.unpin i).bufferArray j).block = (s.cache.bufferArray j).block := by
    grind [Cache.unpin]
  refine ⟨hlinks ▸ h.ring, h.mem, h.order, ?_, fun j => ?_, fun j hj => ?_, h.drops⟩
  · simp only [hbuffers, hblock]
    exact h.blocks
  · have hc := h.count j
    have hw := waiters_setPhase s p .running j
    have hr := releasers_setPhase s p .running j
    simp only [hbuffers, State.waiters, State.releasers, State.holders, State.setPhase] at *
    grind [Cache.unpin]
  · have := h.unused j
    simp only [hbuffers]
    grind [Cache.unpin, State.setPhase]

/-- The buffer whose last reference is dropped moves to the head. -/
theorem Invariant.dropLast {s : State π} {l : List BufferIndex} (h : Invariant s l) {p : π}
    {i : BufferIndex} (hp : s.phase p = .releasing i)
    (hlast : ((s.cache.drop i).bufferArray i).referenceCount = 0) :
    Invariant { s.setPhase p .running with
      cache := s.cache.drop i
      lastDrop := Function.update s.lastDrop i (s.drops + 1)
      drops := s.drops + 1 } (i :: l.erase i) := by
  have hrel : 0 < s.releasers i := card_pos.mpr ⟨p, by simp [hp]⟩
  have hpos := h.count_pos (i := i) (by omega)
  have hsub := sub32_of_le hpos.1
  have hbuffers : (s.cache.drop i).bufferArray = (s.cache.unpin i).bufferArray := by
    unfold Cache.drop
    simp only
    split <;> rfl
  have hlinks : (s.cache.drop i).links = (s.cache.links.unlink i).pushFront i := by
    rw [hbuffers] at hlast
    unfold Cache.drop
    simp only
    rw [if_pos (by simpa [Cache.unpin] using hlast)]
    rfl
  have hblock : ∀ j, ((s.cache.unpin i).bufferArray j).block = (s.cache.bufferArray j).block := by
    grind [Cache.unpin]
  have hnot : i ∉ l.erase i := h.ring.nodup.not_mem_erase
  have hne : ∀ j ∈ l.erase i, j ≠ i := fun j hj hji => hnot (hji ▸ hj)
  constructor
  case ring =>
    rw [hlinks]
    exact (h.ring.unlink (h.mem i)).pushFront hnot
  case mem =>
    intro j
    by_cases hj : j = i
    · exact hj ▸ List.mem_cons_self
    · exact List.mem_cons_of_mem i ((List.mem_erase_of_ne hj).mpr (h.mem j))
  case order =>
    refine List.pairwise_cons.mpr ⟨fun j hj => ?_, ?_⟩
    · have := h.drops j
      have := hne j hj
      grind [Function.update_apply]
    · refine (h.order.sublist List.erase_sublist).imp_of_mem (fun {j k} hj hk hjk => ?_)
      have := hne j hj
      have := hne k hk
      grind [Function.update_apply]
  case blocks =>
    simp only [hbuffers, hblock]
    refine List.pairwise_cons.mpr ⟨fun j hj => h.block_ne hpos.2 (hne j hj), ?_⟩
    exact h.blocks.sublist List.erase_sublist
  case count =>
    intro j
    have hc := h.count j
    have hw := waiters_setPhase s p .running j
    have hr := releasers_setPhase s p .running j
    simp only [hbuffers, State.waiters, State.releasers, State.holders, State.setPhase] at *
    grind [Cache.unpin]
  case unused =>
    intro j hj
    have := h.unused j
    simp only [hbuffers]
    grind [Cache.unpin, State.setPhase]
  case drops =>
    intro j
    have := h.drops j
    grind [Function.update_apply]

omit [DecidableEq π] [Fintype π] in
/-- After some turns of the loop of `init_array`. -/
theorem initBuffers {c : Cache} {l : List BufferIndex} (is : List BufferIndex)
    (hring : IsRing c.links l) (hnodup : is.Nodup) (hdisj : ∀ i ∈ is, i ∉ l)
    (hl : ∀ i ∈ l, c.bufferArray i = ⟨false, .empty, 0⟩) :
    IsRing (is.foldl Cache.initBuffer c).links (is.reverse ++ l) ∧
      ∀ i ∈ is.reverse ++ l,
        (is.foldl Cache.initBuffer c).bufferArray i = ⟨false, .empty, 0⟩ := by
  induction is generalizing c l with
  | nil => exact ⟨hring, hl⟩
  | cons i is ih =>
    obtain ⟨hi, hnodup⟩ := List.nodup_cons.mp hnodup
    have hil := hdisj i List.mem_cons_self
    have := ih (c := c.initBuffer i) (l := i :: l) (hring.pushFront hil) hnodup
      (fun j hj => by grind) (fun j hj => by grind)
    simpa using this

omit [DecidableEq π] in
theorem invariant_initial (memory : Cache) :
    Invariant (State.initial memory : State π) (List.finRange nBuf).reverse := by
  have hempty : IsRing ((memory.links.setPrevious none none).setNext none none)
      ([] : List BufferIndex) := ⟨by simp [Segment], List.nodup_nil⟩
  obtain ⟨hring, hbuffers⟩ := initBuffers
    (c := { memory with links := (memory.links.setPrevious none none).setNext none none })
    (List.finRange nBuf) hempty (List.nodup_finRange nBuf) (by simp) (by simp)
  rw [List.append_nil] at hring hbuffers
  have hzero : ∀ i, ((State.initial memory : State π).cache.bufferArray i).referenceCount = 0 :=
    fun i => by
      rw [show (State.initial memory : State π).cache = memory.initArray from rfl, Cache.initArray,
        hbuffers i (by simp)]
  refine ⟨hring, by simp, ?_, ?_, fun i => ?_, fun i _ => hzero i, fun _ => le_rfl⟩
  · exact List.pairwise_reverse.mpr
      ((List.pairwise_lt_finRange nBuf).imp (fun hij => .inr ⟨rfl, rfl, hij⟩))
  · exact hring.nodup.imp (fun _ _ => rfl)
  · rw [hzero]
    simp [State.holders, State.waiters, State.releasers, State.initial]

theorem invariant_step {s s' : State π} {e : Event π} {l : List BufferIndex} (h : Invariant s l)
    (he : step s e = some s') : ∃ l', Invariant s' l' := by
  cases e with
  | getBuffer p block =>
    simp only [step] at he
    split at he
    next hrun =>
      split at he
      next i c hg =>
        cases he
        exact ⟨l, h.getBuffer hrun hg⟩
      · cases he
    · cases he
  | acquire p =>
    simp only [step] at he
    split at he
    next i hp =>
      split at he
      next hfree =>
        cases he
        exact ⟨l, h.acquire hp hfree⟩
      · cases he
    · cases he
  | release p i =>
    simp only [step] at he
    split at he
    next hen =>
      cases he
      exact ⟨l, h.release hen.1 hen.2⟩
    · cases he
  | drop p =>
    simp only [step] at he
    split at he
    next i hp =>
      split at he
      next hlast =>
        cases he
        exact ⟨i :: l.erase i, h.dropLast hp hlast⟩
      next hlast =>
        cases he
        exact ⟨l, h.drop hp hlast⟩
    · cases he
  | pin p i =>
    simp only [step] at he
    split at he
    next hen =>
      cases he
      exact ⟨l, h.pin hen.2⟩
    · cases he
  | unpin p i =>
    simp only [step] at he
    split at he
    next hen =>
      cases he
      exact ⟨l, h.unpin hen.2⟩
    · cases he

theorem invariant_run {memory : Cache} {es : List (Event π)} {s : State π}
    (hrun : Transition.run step (State.initial memory) es = some s) : ∃ l, Invariant s l :=
  Transition.run_induction (P := fun _ s => ∃ l, Invariant s l) ⟨_, invariant_initial memory⟩
    (fun _ _ _ _ _ ⟨_, h⟩ he => invariant_step h he) es s hrun

omit [DecidableEq π] in
/-- What `get_buffer` recycles was released before all else that is unreferenced. -/
theorem Invariant.least_recent {s : State π} {l₁ l₂ : List BufferIndex} {i j : BufferIndex}
    (h : Invariant s (l₁ ++ i :: l₂))
    (hafter : ∀ k ∈ l₂, (s.cache.bufferArray k).referenceCount ≠ 0) (hji : j ≠ i)
    (hj : (s.cache.bufferArray j).referenceCount = 0) :
    s.lastDrop i < s.lastDrop j ∨ (s.lastDrop i = 0 ∧ s.lastDrop j = 0 ∧ i < j) := by
  obtain hmem | hmem | hmem : j ∈ l₁ ∨ j = i ∨ j ∈ l₂ := by simpa using h.mem j
  · exact ((List.pairwise_append.mp h.order).2.2 j hmem i List.mem_cons_self).imp_right
      (fun ⟨hj, hi, hlt⟩ => ⟨hi, hj, hlt⟩)
  · exact absurd hmem hji
  · exact absurd hj (hafter j hmem)

/-- In every state of every run the links are a ring of all buffers, the counts
add up the users of a buffer, referenced buffers carry different blocks, and
`get_buffer` leaves them alone and recycles the buffer released longest ago. -/
theorem cache_wellFormed (memory : Cache) (es : List (Event π)) (s : State π)
    (hrun : Transition.run step (State.initial memory) es = some s) :
    (∃ l, IsRing s.cache.links l ∧ ∀ i, i ∈ l) ∧
    (∀ i, (s.cache.bufferArray i).referenceCount =
      s.holders i + s.waiters i + s.releasers i + s.pins i) ∧
    (∀ i j, 0 < (s.cache.bufferArray i).referenceCount →
      0 < (s.cache.bufferArray j).referenceCount →
      (s.cache.bufferArray i).block = (s.cache.bufferArray j).block → i = j) ∧
    ∀ block i c, s.cache.getBuffer block = some (i, c) →
      (c.bufferArray i).block = block ∧
      (∀ j, 0 < (s.cache.bufferArray j).referenceCount →
        (c.bufferArray j).block = (s.cache.bufferArray j).block) ∧
      ((s.cache.bufferArray i).block ≠ block →
        (s.cache.bufferArray i).referenceCount = 0 ∧
        ∀ j, j ≠ i → (s.cache.bufferArray j).referenceCount = 0 →
          s.lastDrop i < s.lastDrop j ∨ (s.lastDrop i = 0 ∧ s.lastDrop j = 0 ∧ i < j)) := by
  obtain ⟨l, h⟩ := invariant_run hrun
  refine ⟨⟨l, h.ring, h.mem⟩, h.count, fun i j hi hj hblock => ?_, fun block i c hg => ?_⟩
  · by_contra hij
    have hreturned : ∀ k, 0 < (s.cache.bufferArray k).referenceCount → s.returned k = true := by
      intro k hk
      by_contra hr
      have := h.unused k (by simpa using hr)
      omega
    have := h.block_ne (hreturned i hi) (Ne.symm hij) hblock
    have := hreturned j hj
    simp_all
  · obtain ⟨l₁, l₂, rfl, ⟨hblock, -, rfl⟩ | ⟨hnone, hzero, hafter, rfl⟩⟩ :=
      Cache.getBuffer_cases h.ring h.mem hg
    · exact ⟨by simp [hblock], fun j _ => by grind, fun hne => absurd hblock hne⟩
    · exact ⟨by simp, fun j hj => by grind, fun _ => ⟨hzero, fun j => h.least_recent hafter⟩⟩

/-- Memory before `init_array`. -/
def uninitialized : Cache := ⟨fun _ => ⟨true, ⟨7, .zero⟩, 9⟩, ⟨fun _ => none, fun _ => none⟩⟩

theorem cache_wellFormed_oneBlock :
    (Transition.run step (State.initial uninitialized) [.getBuffer true ⟨5, .rootFsDevice⟩,
      .acquire true, .pin true 0, .release true 0, .drop true]).isSome ∧
    ∀ s, Transition.run step (State.initial uninitialized) [.getBuffer true ⟨5, .rootFsDevice⟩,
        .acquire true, .pin true 0, .release true 0, .drop true] = some s →
      (s.cache.bufferArray 0).referenceCount =
        s.holders 0 + s.waiters 0 + s.releasers 0 + s.pins 0 :=
  ⟨by decide +kernel, fun s hs => (cache_wellFormed _ _ s hs).2.1 0⟩

end Zigmaos.BufferCache
