import Zigmaos.InodeContents
import Zigmaos.SuperBlock

/-!
# What a write records in the log

`Inode.write` once more, with the buffers that `log.write` has recorded in the
open transaction. The buffers of the free map and of the inodes stand for their
parts of the state.
-/
namespace Zigmaos.InodeBlocks

/-- The buffers that an operation on a file changes. -/
inductive Buffer
  | data (b : ℕ)
  | freeMap (k : ℕ)
  | inodes (k : ℕ)
  deriving DecidableEq

/-- The buffer that holds an inode. -/
def inodeBuffer (n : ℕ) : Buffer := .inodes (n / SuperBlock.inodesPerBlock)

/-- The state with the buffers in `log.header.block`. -/
structure Cached where
  state : State
  recorded : Buffer → Bool

namespace Cached

def setState (c : Cached) (s : State) : Cached := { c with state := s }

def record (c : Cached) (b : Buffer) : Cached :=
  { c with recorded := Function.update c.recorded b true }

def logWrite (c : Cached) (b : Buffer) : Except Panic Cached :=
  if c.state.outstanding < 1 then .error .logWriteOutsideOfTrans else .ok (c.record b)

def allocate (c : Cached) : Except Panic (Option ℕ × Cached) :=
  match (List.range ((c.state.superSize + (bitmapBitsPerBlock - 1)) / bitmapBitsPerBlock)).findSome?
      (fun k => c.state.findFree (k * bitmapBitsPerBlock)) with
  | none => .ok (none, c)
  | some b =>
    match (c.setState (c.state.setUsed b true)).logWrite (.freeMap (b / bitmapBitsPerBlock)) with
    | .error p => .error p
    | .ok c =>
      match (c.setState (c.state.setBlock b .zero)).logWrite (.data b) with
      | .error p => .error p
      | .ok c => .ok (some b, c)

def pointerBlock (c : Cached) (n : ℕ) (i : Fin 13) : Except Panic (Option ℕ × Cached) :=
  match c.state.getDiskBlockDirect n i with
  | some b => .ok (some b, c)
  | none =>
    match c.allocate with
    | .error p => .error p
    | .ok (none, c) => .ok (none, c)
    | .ok (some b, c) => .ok (some b, c.setState (c.state.setAddr n i b))

def entryBlock (c : Cached) (indirectBlock k : ℕ) : Except Panic (Option ℕ × Cached) :=
  if c.state.entry indirectBlock k ≠ 0 then .ok (some (c.state.entry indirectBlock k), c)
  else
    match c.allocate with
    | .error p => .error p
    | .ok (none, c) => .ok (none, c)
    | .ok (some b, c) =>
      match (c.setState (c.state.setBlock indirectBlock
          ((c.state.blocks indirectBlock).writeField (4 * k) 4 b))).logWrite (.data indirectBlock) with
      | .error p => .error p
      | .ok c => .ok (some b, c)

def getBlock (c : Cached) (n index : ℕ) : Except Panic (Option ℕ × Cached) :=
  if h : index < directPointerCount then c.pointerBlock n ⟨index, direct_lt h⟩
  else
    let indirectBlockIndex := index - directPointerCount
    if indirectPointerCount ≤ indirectBlockIndex then .error .blockNumberOutOfRange
    else
      match c.pointerBlock n indirectPointerBlockIndex with
      | .error p => .error p
      | .ok (none, c) => .ok (none, c)
      | .ok (some indirectBlock, c) => c.entryBlock indirectBlock indirectBlockIndex

def writeLoop (c : Cached) (n : ℕ) (copyIn : ℕ → ℕ → List UInt8 × Bool) (offset written : ℕ)
    (remaining : ℕ) : Except Panic (ℕ × ℕ × Cached) :=
  if remaining = 0 then .ok (offset, written, c)
  else
    match c.getBlock n (offset / blockSize) with
    | .error p => .error p
    | .ok (none, c) => .ok (offset, written, c)
    | .ok (some b, c) =>
      let count := bytesThisBlock offset remaining
      let c := c.setState (c.state.copied b offset ((copyIn written count).1.take count))
      if (copyIn written count).2 then
        match c.logWrite (.data b) with
        | .error p => .error p
        | .ok c => c.writeLoop n copyIn (offset + count) (written + count) (remaining - count)
      else .ok (offset, written, c)
termination_by remaining
decreasing_by
  have := bytesThisBlock_pos offset ‹_›
  omega

def write (c : Cached) (n : ℕ) (copyIn : ℕ → ℕ → List UInt8 × Bool) (offset count : ℕ) :
    Except Panic (Except Error ℕ × Cached) :=
  if (c.state.inodes n).size < offset then .ok (.error .outOfInodeRange, c)
  else if 2 ^ 32 ≤ offset + count then .ok (.error .offsetOverflows, c)
  else if blockSize * maxFileBlockCount < offset + count then .ok (.error .fileOverflow, c)
  else
    match c.writeLoop n copyIn offset 0 count with
    | .error p => .error p
    | .ok (offset, written, c) =>
      match (c.setState (if (c.state.inodes n).size < offset then c.state.setSize n offset
          else c.state)).logWrite (inodeBuffer n) with
      | .error p => .error p
      | .ok c => .ok (.ok written, c)

end Cached

/-! ## It does what it does without the record -/

/-- The same result on the state alone. -/
def forget {α : Type} : Except Panic (α × Cached) → Except Panic (α × State)
  | .error p => .error p
  | .ok (a, c) => .ok (a, c.state)

namespace Cached

@[simp] theorem record_recorded (c : Cached) (b b' : Buffer) :
    (c.record b).recorded b' = if b' = b then true else c.recorded b' := Function.update_apply ..

@[simp] theorem record_state (c : Cached) (b : Buffer) : (c.record b).state = c.state := rfl

@[simp] theorem setState_recorded (c : Cached) (s : State) (b : Buffer) :
    (c.setState s).recorded b = c.recorded b := rfl

theorem logWrite_eq_ok {c c' : Cached} {b : Buffer} : c.logWrite b = .ok c' ↔
    0 < c.state.outstanding ∧ c' = c.record b := by
  unfold logWrite
  split
  next h => exact ⟨nofun, fun hc => absurd h (by omega)⟩
  next h => exact ⟨fun hc => ⟨by omega, (Except.ok.inj hc).symm⟩, fun hc => by rw [hc.2]⟩

theorem forget_allocate (c : Cached) : forget c.allocate = c.state.allocate := by
  unfold allocate State.allocate
  cases (List.range ((c.state.superSize + (bitmapBitsPerBlock - 1)) / bitmapBitsPerBlock)).findSome?
      (fun k => c.state.findFree (k * bitmapBitsPerBlock)) with
  | none => rfl
  | some b =>
    unfold logWrite State.logWrite
    by_cases ho : c.state.outstanding < 1 <;>
      simp [setState, State.setUsed, State.setBlock, ho, forget]

theorem forget_pointerBlock (c : Cached) (n : ℕ) (i : Fin 13) :
    forget (c.pointerBlock n i) = c.state.pointerBlock n i := by
  unfold pointerBlock State.pointerBlock
  rw [← forget_allocate]
  cases c.state.getDiskBlockDirect n i with
  | some b => rfl
  | none =>
    cases c.allocate with
    | error p => rfl
    | ok r =>
      obtain ⟨_ | b, c'⟩ := r <;> rfl

theorem forget_entryBlock (c : Cached) (ib k : ℕ) :
    forget (c.entryBlock ib k) = c.state.entryBlock ib k := by
  unfold entryBlock State.entryBlock
  rw [← forget_allocate]
  split
  · rfl
  · cases c.allocate with
    | error p => rfl
    | ok r =>
      obtain ⟨_ | b, c'⟩ := r
      · rfl
      · unfold logWrite State.logWrite
        by_cases ho : c'.state.outstanding < 1 <;>
          simp [setState, State.setBlock, ho, forget]

theorem forget_getBlock (c : Cached) (n index : ℕ) :
    forget (c.getBlock n index) = c.state.getBlock n index := by
  unfold getBlock State.getBlock
  split
  · exact forget_pointerBlock ..
  · simp only
    split
    · rfl
    · rw [← forget_pointerBlock]
      cases c.pointerBlock n indirectPointerBlockIndex with
      | error p => rfl
      | ok r =>
        obtain ⟨_ | b, c'⟩ := r
        · rfl
        · exact forget_entryBlock ..

/-- The same result of the loop on the state alone. -/
def forgetLoop : Except Panic (ℕ × ℕ × Cached) → Except Panic (ℕ × ℕ × State)
  | .error p => .error p
  | .ok (offset, written, c) => .ok (offset, written, c.state)

theorem forget_writeLoop (c : Cached) (n : ℕ) (copyIn : ℕ → ℕ → List UInt8 × Bool)
    (offset written remaining : ℕ) :
    forgetLoop (c.writeLoop n copyIn offset written remaining) =
      c.state.writeLoop n copyIn offset written remaining := by
  induction remaining using Nat.strong_induction_on generalizing c offset written with
  | _ remaining ih =>
    rw [writeLoop, State.writeLoop]
    by_cases hzero : remaining = 0
    · rw [if_pos hzero, if_pos hzero]
      rfl
    · rw [if_neg hzero, if_neg hzero, ← forget_getBlock]
      have hpos := bytesThisBlock_pos offset hzero
      cases c.getBlock n (offset / blockSize) with
      | error p => rfl
      | ok r =>
        obtain ⟨_ | b, c'⟩ := r
        · rfl
        · simp only [forget]
          split
          · by_cases ho : c'.state.outstanding < 1
            · unfold logWrite State.logWrite
              simp [setState, State.copied, State.setBlock, ho, forgetLoop]
            · have hlog : ∀ B, (c'.setState (c'.state.copied b offset
                  ((copyIn written (bytesThisBlock offset remaining)).1.take
                    (bytesThisBlock offset remaining)))).logWrite B = .ok _ := fun B => if_neg ho
              have hlog' : (c'.state.copied b offset
                  ((copyIn written (bytesThisBlock offset remaining)).1.take
                    (bytesThisBlock offset remaining))).logWrite = .ok _ := if_neg ho
              unfold State.copied at hlog' ⊢
              rw [hlog']
              unfold State.copied at hlog
              rw [hlog]
              exact ih (remaining - bytesThisBlock offset remaining) (by omega) _ _ _
          · rfl

theorem forget_write (c : Cached) (n : ℕ) (copyIn : ℕ → ℕ → List UInt8 × Bool)
    (offset count : ℕ) :
    forget (c.write n copyIn offset count) = c.state.write n copyIn offset count := by
  unfold write State.write
  rw [← forget_writeLoop]
  split
  · rfl
  · split
    · rfl
    · split
      · rfl
      · cases c.writeLoop n copyIn offset 0 count with
        | error p => rfl
        | ok r =>
          obtain ⟨offset', written, c'⟩ := r
          simp only [forgetLoop]
          unfold logWrite State.logWrite
          by_cases hgrow : (c'.state.inodes n).size < offset' <;>
            by_cases ho : c'.state.outstanding < 1 <;>
              simp [setState, State.setSize, State.setInode, hgrow, ho, forget]

theorem state_of_getBlock {c c' : Cached} {n index : ℕ} {b : Option ℕ}
    (h : c.getBlock n index = .ok (b, c')) : c.state.getBlock n index = .ok (b, c'.state) := by
  rw [← forget_getBlock, h]
  rfl

end Cached

/-! ## What is recorded -/

/-- A buffer whose data are not the same. -/
def Changed (s s' : State) : Buffer → Prop
  | .data b => s'.blocks b ≠ s.blocks b
  | .freeMap k => ∃ b, b / bitmapBitsPerBlock = k ∧ s'.used b ≠ s.used b
  | .inodes k => ∃ n, n / SuperBlock.inodesPerBlock = k ∧ s'.inodes n ≠ s.inodes n

theorem not_changed_refl (s : State) (B : Buffer) : ¬ Changed s s B := by
  cases B with
  | data b => exact fun h => h rfl
  | freeMap k => exact fun ⟨_, _, h⟩ => h rfl
  | inodes k => exact fun ⟨_, _, h⟩ => h rfl

theorem Changed.trans {s s'' : State} {B : Buffer} (h : Changed s s'' B) (s' : State) :
    Changed s s' B ∨ Changed s' s'' B := by
  cases B with
  | data b =>
    by_cases hb : s'.blocks b = s.blocks b
    · exact .inr (fun heq => h (heq.trans hb))
    · exact .inl hb
  | freeMap k =>
    obtain ⟨b, hk, hne⟩ := h
    by_cases hb : s'.used b = s.used b
    · exact .inr ⟨b, hk, fun heq => hne (heq.trans hb)⟩
    · exact .inl ⟨b, hk, hb⟩
  | inodes k =>
    obtain ⟨n, hk, hne⟩ := h
    by_cases hn : s'.inodes n = s.inodes n
    · exact .inr ⟨n, hk, fun heq => hne (heq.trans hn)⟩
    · exact .inl ⟨n, hk, hn⟩

/-- What `getBlock` does to the record: what it changes is recorded, apart from the
inode, and of the data of blocks in use it records the indirect block only. -/
structure Records (n : ℕ) (c c' : Cached) : Prop where
  mono : ∀ B, c.recorded B = true → c'.recorded B = true
  changed : ∀ B, B ≠ inodeBuffer n → Changed c.state c'.state B → c'.recorded B = true
  used : ∀ b, c.state.used b = true → c'.state.used b = true
  only : ∀ b, c'.recorded (.data b) = true → c.recorded (.data b) = true ∨
    c.state.used b = false ∨ b ≠ 0 ∧ b = (c'.state.inodes n).addrs indirectPointerBlockIndex
  addrs : (c.state.inodes n).addrs indirectPointerBlockIndex ≠ 0 →
    (c'.state.inodes n).addrs indirectPointerBlockIndex =
      (c.state.inodes n).addrs indirectPointerBlockIndex

variable {n : ℕ} {c c' c'' : Cached}

theorem Records.refl (n : ℕ) (c : Cached) : Records n c c where
  mono _ h := h
  changed B _ h := absurd h (not_changed_refl _ B)
  used _ h := h
  only _ h := .inl h
  addrs _ := rfl

theorem Records.used_false (h : Records n c c') {b : ℕ} (hb : c'.state.used b = false) :
    c.state.used b = false := by
  cases hused : c.state.used b with
  | false => rfl
  | true =>
    rw [h.used b hused] at hb
    exact absurd hb nofun

theorem Records.trans (h : Records n c c') (h' : Records n c' c'') : Records n c c'' where
  mono B hB := h'.mono B (h.mono B hB)
  changed B hB hchanged := by
    rcases hchanged.trans c'.state with hchanged | hchanged
    · exact h'.mono B (h.changed B hB hchanged)
    · exact h'.changed B hB hchanged
  used b hb := h'.used b (h.used b hb)
  only b hb := by
    rcases h'.only b hb with hb | hb | hb
    · rcases h.only b hb with hb | hb | ⟨hne, hb⟩
      · exact .inl hb
      · exact .inr (.inl hb)
      · exact .inr (.inr ⟨hne, by rw [h'.addrs (hb ▸ hne)]; exact hb⟩)
    · exact .inr (.inl (h.used_false hb))
    · exact .inr (.inr hb)
  addrs hne := by
    have heq := h.addrs hne
    rw [h'.addrs (heq ▸ hne), heq]

theorem allocate_cached {b : Option ℕ} (h : c.allocate = .ok (b, c')) :
    (b = none ∧ c' = c) ∨ ∃ x, b = some x ∧ c.state.used x = false ∧
      c' = ((c.setState (c.state.withBlock x)).record (.freeMap (x / bitmapBitsPerBlock))).record
        (.data x) := by
  have hstate : c.state.allocate = .ok (b, c'.state) := by
    rw [← Cached.forget_allocate, h]
    rfl
  cases b with
  | none =>
    left
    refine ⟨rfl, ?_⟩
    unfold Cached.allocate at h
    split at h
    · exact (Prod.mk.inj (Except.ok.inj h)).2.symm
    · split at h
      · exact absurd h nofun
      · split at h
        · exact absurd h nofun
        · exact absurd (Prod.mk.inj (Except.ok.inj h)).1 nofun
  | some x =>
    right
    refine ⟨x, rfl, (allocate_some hstate).1, ?_⟩
    unfold Cached.allocate at h
    split at h
    · exact absurd h nofun
    · split at h
      · exact absurd h nofun
      next h₁ =>
        split at h
        · exact absurd h nofun
        next h₂ =>
          obtain ⟨-, rfl⟩ := Cached.logWrite_eq_ok.mp h₁
          obtain ⟨-, rfl⟩ := Cached.logWrite_eq_ok.mp h₂
          simp only [Except.ok.injEq, Prod.mk.injEq, Option.some.injEq] at h
          obtain ⟨rfl, rfl⟩ := h
          rfl

theorem allocate_records {b : Option ℕ} (h : c.allocate = .ok (b, c')) : Records n c c' := by
  rcases allocate_cached h with ⟨-, rfl⟩ | ⟨x, -, hx, rfl⟩
  · exact Records.refl n _
  · refine ⟨?_, ?_, ?_, ?_, fun _ => rfl⟩
    · intro B hB
      rw [Cached.record_recorded, Cached.record_recorded, Cached.setState_recorded, hB, ite_self,
        ite_self]
    · intro B _ hchanged
      rw [Cached.record_recorded, Cached.record_recorded]
      cases B with
      | data b =>
        have hb : b = x := by
          by_contra hne
          refine hchanged ?_
          change (c.state.withBlock x).blocks b = _
          simp only [State.withBlock, State.setBlock_blocks, if_neg hne]
          rfl
        rw [hb, if_pos rfl]
      | freeMap k =>
        obtain ⟨b, rfl, hne⟩ := hchanged
        have hb : b = x := by
          by_contra hbx
          refine hne ?_
          change (c.state.setUsed x true).used b = _
          rw [State.setUsed_used, if_neg hbx]
        rw [hb, if_neg (by simp), if_pos rfl]
      | inodes k =>
        obtain ⟨m, -, hne⟩ := hchanged
        exact absurd rfl hne
    · intro b hb
      change (c.state.setUsed x true).used b = true
      rw [State.setUsed_used, hb, ite_self]
    · intro b hb
      by_cases hbx : b = x
      · exact .inr (.inl (by rw [hbx]; exact hx))
      · left
        rwa [Cached.record_recorded, Cached.record_recorded,
          if_neg (fun heq => hbx (Buffer.data.inj heq)), if_neg (by simp)] at hb

/-- A change of the inode alone. -/
theorem records_setAddr {i : Fin 13} {b : ℕ} (hi : i = indirectPointerBlockIndex →
      (c.state.inodes n).addrs indirectPointerBlockIndex = 0) :
    Records n c (c.setState (c.state.setAddr n i b)) := by
  refine ⟨fun _ h => h, ?_, fun _ h => h, fun _ h => .inl h, ?_⟩
  · intro B hB hchanged
    cases B with
    | data b => exact absurd rfl hchanged
    | freeMap k =>
      obtain ⟨b, -, hne⟩ := hchanged
      exact absurd rfl hne
    | inodes k =>
      obtain ⟨m, rfl, hne⟩ := hchanged
      have hm : m ≠ n := fun heq => hB (by rw [heq]; rfl)
      refine absurd ?_ hne
      change (c.state.setInode n _).inodes m = _
      rw [State.setInode_inodes, if_neg hm]
  · intro hne
    change ((c.state.setAddr n i b).inodes n).addrs indirectPointerBlockIndex = _
    rw [State.setAddr_addrs, if_neg]
    rintro ⟨-, hp⟩
    exact hne (hi hp.symm)

theorem pointerBlock_records {i : Fin 13} {b : Option ℕ} (h : c.pointerBlock n i = .ok (b, c')) :
    Records n c c' := by
  unfold Cached.pointerBlock State.getDiskBlockDirect at h
  by_cases hzero : (c.state.inodes n).addrs i = 0
  · simp only [if_pos hzero] at h
    cases ha : c.allocate with
    | error p => simp [ha] at h
    | ok r =>
      obtain ⟨_ | x, c₁⟩ := r
      · simp only [ha, Except.ok.injEq, Prod.mk.injEq] at h
        obtain ⟨-, rfl⟩ := h
        exact allocate_records ha
      · simp only [ha, Except.ok.injEq, Prod.mk.injEq] at h
        obtain ⟨-, rfl⟩ := h
        refine (allocate_records ha).trans (records_setAddr (fun hi => ?_))
        obtain ⟨hnone, -⟩ | ⟨y, -, -, rfl⟩ := allocate_cached ha
        · exact absurd hnone nofun
        · rw [← hi]
          exact hzero
  · simp only [if_neg hzero, Except.ok.injEq, Prod.mk.injEq] at h
    obtain ⟨-, rfl⟩ := h
    exact Records.refl n _

theorem entryBlock_records {k ib : ℕ} {b : Option ℕ}
    (hib : (c.state.inodes n).addrs indirectPointerBlockIndex = ib) (hne : ib ≠ 0)
    (h : c.entryBlock ib k = .ok (b, c')) : Records n c c' := by
  unfold Cached.entryBlock at h
  split at h
  · simp only [Except.ok.injEq, Prod.mk.injEq] at h
    obtain ⟨-, rfl⟩ := h
    exact Records.refl n _
  · cases ha : c.allocate with
    | error p => simp [ha] at h
    | ok r =>
      obtain ⟨_ | x, c₁⟩ := r
      · simp only [ha, Except.ok.injEq, Prod.mk.injEq] at h
        obtain ⟨-, rfl⟩ := h
        exact allocate_records ha
      · simp only [ha] at h
        split at h
        · exact absurd h nofun
        next c₂ hl =>
          simp only [Except.ok.injEq, Prod.mk.injEq] at h
          obtain ⟨-, rfl⟩ := h
          obtain ⟨-, hc₂⟩ := Cached.logWrite_eq_ok.mp hl
          have hrec := allocate_records (n := n) ha
          have haddr := (hrec.addrs (hib ▸ hne)).trans hib
          refine hrec.trans ?_
          rw [hc₂]
          refine ⟨?_, ?_, fun _ h => h, ?_, fun _ => rfl⟩
          · intro B hB
            rw [Cached.record_recorded, Cached.setState_recorded, hB, ite_self]
          · intro B _ hchanged
            cases B with
            | data y =>
              have hy : y = ib := by
                by_contra hyb
                refine hchanged ?_
                change (c₁.state.setBlock ib _).blocks y = _
                rw [State.setBlock_blocks, if_neg hyb]
              rw [hy, Cached.record_recorded, if_pos rfl]
            | freeMap k =>
              obtain ⟨y, -, hy⟩ := hchanged
              exact absurd rfl hy
            | inodes k =>
              obtain ⟨m, -, hm⟩ := hchanged
              exact absurd rfl hm
          · intro y hy
            by_cases hyb : y = ib
            · exact .inr (.inr ⟨by rw [hyb]; exact hne, by rw [hyb]; exact haddr.symm⟩)
            · left
              rwa [Cached.record_recorded, if_neg (fun heq => hyb (Buffer.data.inj heq))] at hy

theorem getBlock_records {live : ℕ → Prop} (hw : WellFormed live c.state) (hn : live n)
    {index : ℕ} {b : Option ℕ} (h : c.getBlock n index = .ok (b, c')) : Records n c c' := by
  unfold Cached.getBlock at h
  split at h
  · exact pointerBlock_records h
  · simp only at h
    split at h
    · exact absurd h nofun
    · split at h
      · exact absurd h nofun
      next hp =>
        simp only [Except.ok.injEq, Prod.mk.injEq] at h
        obtain ⟨-, rfl⟩ := h
        exact pointerBlock_records hp
      next ib c₁ hp =>
        have hp' : c.state.pointerBlock n indirectPointerBlockIndex = .ok (some ib, c₁.state) := by
          rw [← Cached.forget_pointerBlock, hp]
          rfl
        obtain ⟨-, -, hib⟩ := pointerBlock_got hw hn hp'
        obtain ⟨hib, hne⟩ := hib ib rfl
        exact (pointerBlock_records hp).trans (entryBlock_records hib hne h)

end Zigmaos.InodeBlocks
