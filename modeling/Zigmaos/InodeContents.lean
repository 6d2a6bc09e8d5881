import Zigmaos.InodeBlocksInvariant

/-!
# The bytes of a file

What `getBlock` and `Inode.write` leave of the bytes of a file. A block that
`getBlock` allocates was not in use, so the blocks of the file stay as they are
apart from the indirect one, and a write changes the bytes of its own range.
-/
namespace Zigmaos.InodeBlocks
namespace State

/-- The state after `allocate` has returned `b`. -/
def withBlock (s : State) (b : ℕ) : State := (s.setUsed b true).setBlock b .zero

/-- The first part of the free map comes first. -/
theorem allocate_of_findFree {s : State} {b : ℕ} (hsize : 0 < s.superSize)
    (ho : 0 < s.outstanding) (hb : s.findFree 0 = some b) :
    s.allocate = .ok (some b, s.withBlock b) := by
  have hcount : ∃ k, (s.superSize + (bitmapBitsPerBlock - 1)) / bitmapBitsPerBlock = k + 1 := by
    refine Nat.exists_eq_succ_of_ne_zero (Nat.pos_iff_ne_zero.mp (Nat.div_pos ?_ (by decide)))
    simp only [bitmapBitsPerBlock, blockSize]
    omega
  obtain ⟨k, hk⟩ := hcount
  have hsome : (List.range ((s.superSize + (bitmapBitsPerBlock - 1)) / bitmapBitsPerBlock)).findSome?
      (fun k => s.findFree (k * bitmapBitsPerBlock)) = some b := by
    rw [hk, List.range_succ_eq_map, List.findSome?_cons, Nat.zero_mul, hb]
  have h₁ : (s.setUsed b true).logWrite = .ok (s.setUsed b true) := logWrite_eq_ok.mpr ⟨ho, rfl⟩
  have h₂ : ((s.setUsed b true).setBlock b .zero).logWrite =
      .ok ((s.setUsed b true).setBlock b .zero) := logWrite_eq_ok.mpr ⟨ho, rfl⟩
  unfold allocate
  simp only [hsome, h₁, h₂]
  rfl

theorem pointerBlock_some {s s' : State} {n b : ℕ} {i : Fin 13}
    (hr : s.pointerBlock n i = .ok (some b, s')) :
    ((s.inodes n).addrs i = b ∧ b ≠ 0 ∧ s' = s) ∨
      ((s.inodes n).addrs i = 0 ∧ s.allocate = .ok (some b, s.withBlock b) ∧
        s' = (s.withBlock b).setAddr n i b) := by
  unfold pointerBlock at hr
  by_cases hzero : (s.inodes n).addrs i = 0
  · right
    simp only [getDiskBlockDirect, if_pos hzero] at hr
    cases ha : s.allocate with
    | error p => simp [ha] at hr
    | ok r =>
      obtain ⟨_ | c, s₁⟩ := r
      · simp [ha] at hr
      · simp only [ha, Except.ok.injEq, Prod.mk.injEq, Option.some.injEq] at hr
        obtain ⟨rfl, rfl⟩ := hr
        have hs := (allocate_some ha).2.2
        exact ⟨hzero, by rw [hs]; rfl, by rw [hs]; rfl⟩
  · left
    simp only [getDiskBlockDirect, if_neg hzero, Except.ok.injEq, Prod.mk.injEq,
      Option.some.injEq] at hr
    obtain ⟨rfl, rfl⟩ := hr
    exact ⟨rfl, hzero, rfl⟩

theorem entryBlock_some {s s' : State} {ib k b : ℕ}
    (hr : s.entryBlock ib k = .ok (some b, s')) :
    (s.entry ib k = b ∧ b ≠ 0 ∧ s' = s) ∨
      (s.entry ib k = 0 ∧ s.allocate = .ok (some b, s.withBlock b) ∧
        s' = (s.withBlock b).setBlock ib (((s.withBlock b).blocks ib).writeField (4 * k) 4 b)) := by
  unfold entryBlock at hr
  by_cases hzero : s.entry ib k = 0
  · right
    rw [if_neg (not_not.mpr hzero)] at hr
    cases ha : s.allocate with
    | error p => simp [ha] at hr
    | ok r =>
      obtain ⟨_ | c, s₁⟩ := r
      · simp [ha] at hr
      · simp only [ha] at hr
        have hs := (allocate_some ha).2.2
        cases hl : (s₁.setBlock ib ((s₁.blocks ib).writeField (4 * k) 4 c)).logWrite with
        | error p => simp [hl] at hr
        | ok s₂ =>
          simp only [hl, Except.ok.injEq, Prod.mk.injEq, Option.some.injEq] at hr
          obtain ⟨rfl, rfl⟩ := hr
          obtain ⟨-, hs₂⟩ := logWrite_eq_ok.mp hl
          exact ⟨hzero, by rw [hs]; rfl, by rw [hs₂, hs]; rfl⟩
  · left
    rw [if_pos hzero] at hr
    simp only [Except.ok.injEq, Prod.mk.injEq, Option.some.injEq] at hr
    obtain ⟨rfl, rfl⟩ := hr
    exact ⟨rfl, hzero, rfl⟩

end State

open State

variable {live : ℕ → Prop} {s s' s'' : State} {n : ℕ}

/-- What `getBlock` leaves alone when it returns `b` for the slot: the other slots,
apart from the indirect pointer, and the contents of the blocks that files have. -/
structure Kept (live : ℕ → Prop) (n : ℕ) (slot : Slot) (s s' : State) (b : ℕ) : Prop where
  target_eq : ∀ m slot', live m → ¬ (m = n ∧ (slot' = slot ∨
    slot' = .pointer indirectPointerBlockIndex)) → s'.target m slot' = s.target m slot'
  blocks_eq : ∀ m slot', live m → slot' ≠ .pointer indirectPointerBlockIndex →
    s.target m slot' ≠ 0 → s'.blocks (s.target m slot') = s.blocks (s.target m slot')
  fresh : s.target n slot = 0 → slot ≠ .pointer indirectPointerBlockIndex → s'.blocks b = .zero
  outstanding_eq : s'.outstanding = s.outstanding

theorem Kept.refl {slot : Slot} (hne : s.target n slot ≠ 0) (b : ℕ) : Kept live n slot s s b where
  target_eq _ _ _ _ := rfl
  blocks_eq _ _ _ _ _ := rfl
  fresh h := absurd h hne
  outstanding_eq := rfl

/-- The contents of a block in use survive an allocation. -/
theorem withBlock_blocks_of_used {b c : ℕ} (hb : s.used b = false) (hc : s.used c = true) :
    (s.withBlock b).blocks c = s.blocks c := by
  have hne : c ≠ b := by
    rintro rfl
    rw [hb] at hc
    exact absurd hc nofun
  rw [withBlock, setBlock_blocks, if_neg hne]
  rfl

theorem pointerBlock_kept (h : WellFormed live s) (hn : live n) {i : Fin 13} {b : ℕ}
    (hr : s.pointerBlock n i = .ok (some b, s')) : Kept live n (.pointer i) s s' b := by
  obtain ⟨rfl, hb, rfl⟩ | ⟨hzero, ha, rfl⟩ := pointerBlock_some hr
  · exact Kept.refl (show s'.target n (.pointer i) ≠ 0 from hb) _
  · have hf := h.fresh ha
    have hb := (allocate_some ha).1
    refine ⟨?_, ?_, ?_, rfl⟩
    · intro m slot' hm hother
      rw [← hf.target_eq m slot' hm]
      cases slot' with
      | pointer j =>
        have hne : ¬ (m = n ∧ j = i) := fun heq => hother ⟨heq.1, .inl (by rw [heq.2])⟩
        simp only [target, setAddr_addrs, if_neg hne]
      | entry k =>
        by_cases hmn : m = n ∧ indirectPointerBlockIndex = i
        · -- A new indirect block has no entries.
          obtain ⟨rfl, rfl⟩ := hmn
          have hold : ((s.withBlock b).inodes m).addrs indirectPointerBlockIndex = 0 := hzero
          simp only [target, setAddr_addrs, and_self, if_true, hold]
          rw [if_neg hf.pos, entry, setAddr_blocks, hf.zero, Block.readField_zero]
        · simp only [target, setAddr_addrs, if_neg hmn, entry, setAddr_blocks]
    · intro m slot' hm _ hne
      exact withBlock_blocks_of_used hb (h.target_used m slot' hm hne).2
    · intro _ _
      exact hf.zero

theorem entryBlock_kept (h : WellFormed live s) (hn : live n) {k : ℕ}
    (hk : k < indirectPointerCount) (hpos : (s.inodes n).addrs indirectPointerBlockIndex ≠ 0)
    {b : ℕ} (hr : s.entryBlock ((s.inodes n).addrs indirectPointerBlockIndex) k = .ok (some b, s')) :
    Kept live n (.entry ⟨k, hk⟩) s s' b := by
  have hentry : s.target n (.entry ⟨k, hk⟩) =
      s.entry ((s.inodes n).addrs indirectPointerBlockIndex) k := by rw [target, if_neg hpos]
  obtain ⟨hb, hne, rfl⟩ | ⟨hzero, ha, hs⟩ := entryBlock_some hr
  · exact Kept.refl (by rw [hentry, hb]; exact hne) _
  · have hf := h.fresh ha
    have hb := (allocate_some ha).1
    have hinodes : s'.inodes = s.inodes := by rw [hs]; rfl
    have hib : ∀ m slot', live m → s.target m slot' =
        (s.inodes n).addrs indirectPointerBlockIndex →
        m = n ∧ slot' = .pointer indirectPointerBlockIndex := by
      intro m slot' hm heq
      obtain ⟨rfl, rfl⟩ := h.target_inj n m (.pointer _) slot' hn hm hpos heq.symm
      exact ⟨rfl, rfl⟩
    refine ⟨?_, ?_, ?_, by rw [hs]; rfl⟩
    · intro m slot' hm hother
      rw [← hf.target_eq m slot' hm]
      by_cases hmn : m = n
      · subst hmn
        cases slot' with
        | pointer j => simp only [target, hinodes]; rfl
        | entry j =>
          have hjk : j.val ≠ k := fun heq =>
            hother ⟨rfl, .inl (by rw [Slot.entry.injEq]; exact Fin.ext heq)⟩
          have hj := j.isLt
          have hpos' : ((s.withBlock b).inodes m).addrs indirectPointerBlockIndex ≠ 0 := hpos
          rw [target, target, hinodes, if_neg hpos, if_neg hpos', entry, hs, setBlock_blocks,
            if_pos rfl, Block.readField_writeField_disjoint _ _ _ _ _ _ (by
              simp only [indirectPointerCount, blockSize] at *; omega) (by omega)]
          rfl
      · refine target_congr (by rw [hinodes]; rfl) (fun hne => ?_) slot'
        have hdiff : ((s.withBlock b).inodes m).addrs indirectPointerBlockIndex ≠
            (s.inodes n).addrs indirectPointerBlockIndex :=
          fun heq => hmn (hib m (.pointer _) hm heq).1
        rw [hs, setBlock_blocks, if_neg hdiff]
    · intro m slot' hm hslot hne
      have hdiff : s.target m slot' ≠ (s.inodes n).addrs indirectPointerBlockIndex :=
        fun heq => hslot (hib m slot' hm heq).2
      rw [hs, setBlock_blocks, if_neg hdiff]
      exact withBlock_blocks_of_used hb (h.target_used m slot' hm hne).2
    · intro _ _
      have hdiff : b ≠ (s.inodes n).addrs indirectPointerBlockIndex :=
        fun heq => hf.ne n (.pointer _) hn heq.symm
      rw [hs, setBlock_blocks, if_neg hdiff]
      exact hf.zero

theorem getBlock_kept (h : WellFormed live s) (hn : live n) {index b : ℕ}
    (hr : s.getBlock n index = .ok (some b, s')) : Kept live n (slotOf index) s s' b := by
  unfold getBlock at hr
  unfold slotOf
  split at hr
  next hd =>
    rw [dif_pos hd]
    exact pointerBlock_kept h hn hr
  next hd =>
    rw [dif_neg hd]
    simp only at hr
    split at hr
    · cases hr
    next hk =>
      have hk' : index - directPointerCount < indirectPointerCount := Nat.not_le.mp hk
      split at hr
      · cases hr
      · cases hr
      next ib s₁ hs₁ =>
        obtain ⟨hw₁, -, hib⟩ := pointerBlock_got h hn hs₁
        obtain ⟨hib, hne⟩ := hib ib rfl
        have hkept := pointerBlock_kept h hn hs₁
        obtain rfl : (s₁.inodes n).addrs indirectPointerBlockIndex = ib := hib
        have hkept' := entryBlock_kept hw₁ hn hk' hne hr
        simp only [Nat.mod_eq_of_lt hk']
        have htarget : ∀ m slot', live m → slot' ≠ .pointer indirectPointerBlockIndex →
            s₁.target m slot' = s.target m slot' := by
          intro m slot' hm hslot
          exact hkept.target_eq m slot' hm (fun hboth => hboth.2.elim hslot hslot)
        refine ⟨?_, ?_, ?_, hkept'.outstanding_eq.trans hkept.outstanding_eq⟩
        · intro m slot' hm hother
          rw [hkept'.target_eq m slot' hm hother]
          exact hkept.target_eq m slot' hm
            (fun hboth => hother ⟨hboth.1, .inr (hboth.2.elim id id)⟩)
        · intro m slot' hm hslot hnz
          have heq := htarget m slot' hm hslot
          have hblocks := hkept'.blocks_eq m slot' hm hslot (by rw [heq]; exact hnz)
          rw [heq] at hblocks
          rw [hblocks]
          exact hkept.blocks_eq m slot' hm hslot hnz
        · intro hz hslot
          exact hkept'.fresh (by rw [htarget n _ hn hslot]; exact hz) hslot

theorem slotOf_inj {i index : ℕ} (hi : i < directPointerCount + indirectPointerCount)
    (hindex : index < directPointerCount + indirectPointerCount) (heq : slotOf i = slotOf index) :
    i = index := by
  simp only [directPointerCount, indirectPointerCount] at hi hindex
  unfold slotOf at heq
  split at heq <;> split at heq
  · exact congrArg Fin.val (Slot.pointer.inj heq)
  · cases heq
  · cases heq
  · have hval := congrArg Fin.val (Slot.entry.inj heq)
    simp only [directPointerCount, indirectPointerCount] at *
    omega

theorem getBlock_index_lt {index b : ℕ} (hr : s.getBlock n index = .ok (some b, s')) :
    index < directPointerCount + indirectPointerCount := by
  unfold getBlock at hr
  split at hr
  next hd => exact hd.trans (by decide)
  next hd =>
    simp only at hr
    split at hr
    · cases hr
    next hk =>
      have hlt := Nat.not_le.mp hk
      omega

/-- The entries of the other indices stay. -/
theorem Kept.blockEntry_eq {index b : ℕ} (h : Kept live n (slotOf index) s s' b) (hn : live n)
    (hindex : index < directPointerCount + indirectPointerCount) {i : ℕ} (hne : i ≠ index) :
    s'.blockEntry n i = s.blockEntry n i := by
  by_cases hi : i < directPointerCount + indirectPointerCount
  · rw [State.blockEntry_eq hi, State.blockEntry_eq hi]
    exact h.target_eq n _ hn (fun hboth =>
      hboth.2.elim (fun heq => hne (slotOf_inj hi hindex heq)) (slotOf_ne_indirect i))
  · rw [not_not.mp (mt index_lt_of_blockEntry hi), not_not.mp (mt index_lt_of_blockEntry hi)]

theorem Kept.other_blockEntry_eq {index b m : ℕ} (h : Kept live n (slotOf index) s s' b)
    (hm : live m) (hne : m ≠ n) (i : ℕ) : s'.blockEntry m i = s.blockEntry m i := by
  by_cases hi : i < directPointerCount + indirectPointerCount
  · rw [State.blockEntry_eq hi, State.blockEntry_eq hi]
    exact h.target_eq m _ hm (fun hboth => hne hboth.1)
  · rw [not_not.mp (mt index_lt_of_blockEntry hi), not_not.mp (mt index_lt_of_blockEntry hi)]

/-- Entries and pointers are apart, so a new indirect block moves no entry. -/
theorem Kept.blockEntry_indirect {b m : ℕ}
    (h : Kept live n (.pointer indirectPointerBlockIndex) s s' b) (hm : live m) (i : ℕ) :
    s'.blockEntry m i = s.blockEntry m i := by
  by_cases hi : i < directPointerCount + indirectPointerCount
  · rw [State.blockEntry_eq hi, State.blockEntry_eq hi]
    exact h.target_eq m _ hm (fun hboth =>
      hboth.2.elim (slotOf_ne_indirect i) (slotOf_ne_indirect i))
  · rw [not_not.mp (mt index_lt_of_blockEntry hi), not_not.mp (mt index_lt_of_blockEntry hi)]

namespace State

/-- What the block of an index holds once `getBlock` has returned it: what it held,
or zeros. -/
def held (s : State) (n index : ℕ) : Block :=
  if s.blockEntry n index = 0 then .zero else s.blocks (s.blockEntry n index)

end State

/-- A turn of `Inode.write`: `getBlock` returns `b` and its data become `data`. -/
structure Turned (live : ℕ → Prop) (n index : ℕ) (s s' : State) (b : ℕ) (data : Block) : Prop where
  wellFormed : WellFormed live s'
  grows : Grows live s s'
  entry : s'.blockEntry n index = b
  ne : b ≠ 0
  entry_eq : ∀ i ≠ index, s'.blockEntry n i = s.blockEntry n i
  other_eq : ∀ m ≠ n, live m → ∀ i, s'.blockEntry m i = s.blockEntry m i
  held : s'.held n index = data
  held_eq : ∀ i ≠ index, s'.held n i = s.held n i
  outstanding_eq : s'.outstanding = s.outstanding

theorem getBlock_held (h : WellFormed live s) (hn : live n) {index b : ℕ}
    (hr : s.getBlock n index = .ok (some b, s')) : s'.blocks b = s.held n index := by
  have hkept := getBlock_kept h hn hr
  have hlt := getBlock_index_lt hr
  obtain ⟨-, hg, hb⟩ := getBlock_spec h hn hr
  obtain ⟨hb, -⟩ := hb b rfl
  unfold State.held
  split
  next hzero =>
    rw [State.blockEntry_eq hlt] at hzero
    exact hkept.fresh hzero (slotOf_ne_indirect index)
  next hne =>
    have hsame := hg.blockEntry hn hne
    rw [State.blockEntry_eq hlt] at hne
    have hblocks := hkept.blocks_eq n _ hn (slotOf_ne_indirect index) hne
    rw [← State.blockEntry_eq hlt, ← hsame, hb] at hblocks
    rw [← hsame, hb, hblocks]

theorem getBlock_turn (h : WellFormed live s) (hn : live n) {index b : ℕ}
    (hr : s.getBlock n index = .ok (some b, s')) (data : Block) :
    Turned live n index s (s'.setBlock b data) b data := by
  have hkept := getBlock_kept h hn hr
  have hlt := getBlock_index_lt hr
  obtain ⟨hw, hg, hb⟩ := getBlock_spec h hn hr
  obtain ⟨hb, hne⟩ := hb b rfl
  obtain rfl : s'.blockEntry n index = b := hb
  obtain ⟨hw', hg'⟩ := hw.setBlock hn hne data
  have hentries : ∀ m, live m → ∀ i,
      (s'.setBlock (s'.blockEntry n index) data).blockEntry m i = s'.blockEntry m i := by
    intro m hm i
    exact blockEntry_congr (fun slot => hw.setBlock_target hn hne data m slot hm) i
  refine ⟨hw', hg.trans hg', hentries n hn index, hne, ?_, ?_, ?_, ?_, hkept.outstanding_eq⟩
  · intro i hi
    rw [hentries n hn, hkept.blockEntry_eq hn hlt hi]
  · intro m hmn hm i
    rw [hentries m hm, hkept.other_blockEntry_eq hm hmn]
  · rw [held, hentries n hn, if_neg hne, setBlock_blocks, if_pos rfl]
  · intro i hi
    have hsame := hkept.blockEntry_eq hn hlt hi
    rw [held, held, hentries n hn, hsame]
    split
    · rfl
    next hnz =>
      have hi' := index_lt_of_blockEntry hnz
      have hdiff : s.blockEntry n i ≠ s'.blockEntry n index := by
        rw [← hsame, State.blockEntry_eq hi', State.blockEntry_eq hlt]
        intro heq
        rw [← hsame, State.blockEntry_eq hi'] at hnz
        exact hi (slotOf_inj hi' hlt (hw.target_inj n n _ _ hn hn hnz heq).2)
      rw [setBlock_blocks, if_neg hdiff]
      rw [State.blockEntry_eq hi'] at hnz ⊢
      exact hkept.blocks_eq n _ hn (slotOf_ne_indirect i) hnz

/-! ## Bytes -/

/-- Byte `k` of the file, and zero where there is no block for it. -/
def State.fileByte (s : State) (n k : ℕ) : UInt8 := (s.held n (k / blockSize)).byte (k % blockSize)

theorem bytesThisBlock_le (offset remaining : ℕ) :
    offset % blockSize + bytesThisBlock offset remaining ≤ blockSize := by
  simp only [bytesThisBlock, blockSize]
  omega

/-- What a call of `getBlock` leaves alone that finds no free block. -/
structure Refused (live : ℕ → Prop) (n index : ℕ) (s s' : State) : Prop where
  entry_zero : s.blockEntry n index = 0
  wellFormed : WellFormed live s'
  grows : Grows live s s'
  entry_eq : ∀ m, live m → ∀ i, s'.blockEntry m i = s.blockEntry m i
  fileByte_eq : ∀ k, s'.fileByte n k = s.fileByte n k
  outstanding_eq : s'.outstanding = s.outstanding

theorem pointerBlock_none {i : Fin 13} (hr : s.pointerBlock n i = .ok (none, s')) : s' = s := by
  unfold pointerBlock at hr
  split at hr
  · cases hr
  · split at hr
    · cases hr
    next ha =>
      obtain rfl := (Prod.mk.inj (Except.ok.inj hr)).2
      exact allocate_none ha
    · cases hr

theorem entryBlock_none {ib k : ℕ} (hr : s.entryBlock ib k = .ok (none, s')) : s' = s := by
  unfold entryBlock at hr
  split at hr
  · cases hr
  · split at hr
    · cases hr
    next ha =>
      obtain rfl := (Prod.mk.inj (Except.ok.inj hr)).2
      exact allocate_none ha
    · split at hr <;> cases hr

theorem getBlock_refused (h : WellFormed live s) (hn : live n) {index : ℕ}
    (hr : s.getBlock n index = .ok (none, s')) : Refused live n index s s' := by
  obtain ⟨hw, hg, -⟩ := getBlock_spec h hn hr
  have hzero : s.blockEntry n index = 0 := by
    by_contra hne
    rw [getBlock_of_blockEntry hne] at hr
    cases hr
  unfold getBlock at hr
  split at hr
  · obtain rfl := pointerBlock_none hr
    exact ⟨hzero, hw, hg, fun _ _ _ => rfl, fun _ => rfl, rfl⟩
  · simp only at hr
    split at hr
    · cases hr
    · split at hr
      · cases hr
      next hp =>
        obtain rfl := (Prod.mk.inj (Except.ok.inj hr)).2
        obtain rfl := pointerBlock_none hp
        exact ⟨hzero, hw, hg, fun _ _ _ => rfl, fun _ => rfl, rfl⟩
      next ib s₁ hp =>
        obtain rfl := entryBlock_none hr
        have hkept := pointerBlock_kept h hn hp
        have hentry := fun i => hkept.blockEntry_indirect hn i
        refine ⟨hzero, hw, hg, fun m hm i => hkept.blockEntry_indirect hm i, fun k => ?_,
          hkept.outstanding_eq⟩
        unfold State.fileByte State.held
        rw [hentry]
        split
        · rfl
        next hne =>
          have hlt := index_lt_of_blockEntry hne
          rw [State.blockEntry_eq hlt] at hne ⊢
          rw [hkept.blocks_eq n _ hn (slotOf_ne_indirect _) hne]

/-- The turn changes the bytes that it copies in. -/
theorem Turned.fileByte {offset len b : ℕ} {f : ℕ → UInt8}
    (h : Turned live n (offset / blockSize) s s' b
      ((s.held n (offset / blockSize)).splice (offset % blockSize) len f))
    (hlen : offset % blockSize + len ≤ blockSize) (k : ℕ) :
    s'.fileByte n k = if offset ≤ k ∧ k < offset + len then f (k - offset) else s.fileByte n k := by
  have hmod : k % blockSize < blockSize := Nat.mod_lt _ (by decide)
  unfold State.fileByte
  by_cases hk : k / blockSize = offset / blockSize
  · rw [hk, h.held, Block.byte_splice _ _ _ _ _ hmod]
    have hiff : (offset % blockSize ≤ k % blockSize ∧ k % blockSize < offset % blockSize + len) ↔
        (offset ≤ k ∧ k < offset + len) := by
      simp only [blockSize] at *
      omega
    have hsub : k % blockSize - offset % blockSize = k - offset := by
      simp only [blockSize] at *
      omega
    simp only [hiff, hsub]
  · rw [h.held_eq _ hk, if_neg]
    simp only [blockSize] at *
    omega

/-- A source of which the bytes from the `limit`-th on are not mapped. -/
def source (src : ℕ → UInt8) (limit k count : ℕ) : List UInt8 × Bool :=
  ((List.range (min count (limit - k))).map (fun i => src (k + i)), decide (k + count ≤ limit))

theorem source_take (src : ℕ → UInt8) (limit k count : ℕ) :
    (source src limit k count).1.take count = (source src limit k count).1 := by
  rw [List.take_of_length_le]
  simp only [source, List.length_map, List.length_range]
  exact min_le_left _ _

theorem source_length (src : ℕ → UInt8) (limit k count : ℕ) :
    (source src limit k count).1.length = min count (limit - k) := by
  simp only [source, List.length_map, List.length_range]

theorem source_getElem? (src : ℕ → UInt8) {limit k count i : ℕ} (h : i < min count (limit - k)) :
    ((source src limit k count).1[i]?).getD 0 = src (k + i) := by
  simp only [source]
  rw [List.getElem?_map, List.getElem?_range h]
  rfl

/-- The block once the bytes are in its buffer. -/
def State.copied (s : State) (b offset : ℕ) (bytes : List UInt8) : State :=
  s.setBlock b ((s.blocks b).splice (offset % blockSize) bytes.length
    (fun i => (bytes[i]?).getD 0))

/-- A turn with that source, whether all bytes come in or not. -/
theorem getBlock_source (h : WellFormed live s) (hn : live n) (src : ℕ → UInt8)
    (limit written remaining : ℕ) {offset b : ℕ}
    (hr : s.getBlock n (offset / blockSize) = .ok (some b, s')) {bytes : List UInt8}
    (hbytes : bytes = (source src limit written (bytesThisBlock offset remaining)).1) :
    WellFormed live (s'.copied b offset bytes) ∧ Grows live s (s'.copied b offset bytes) ∧
      (s'.copied b offset bytes).outstanding = s.outstanding ∧
      ∀ k, (s'.copied b offset bytes).fileByte n k =
        if offset ≤ k ∧ k < offset + min (bytesThisBlock offset remaining) (limit - written) then
          src (written + (k - offset)) else s.fileByte n k := by
  have hturn : Turned live n (offset / blockSize) s (s'.copied b offset bytes) b
      ((s.held n (offset / blockSize)).splice (offset % blockSize) bytes.length
        (fun i => (bytes[i]?).getD 0)) := by
    rw [← getBlock_held h hn hr]
    exact getBlock_turn h hn hr _
  have hlen : bytes.length = min (bytesThisBlock offset remaining) (limit - written) := by
    rw [hbytes, source_length]
  have hfit : offset % blockSize + bytes.length ≤ blockSize := by
    have := bytesThisBlock_le offset remaining
    omega
  refine ⟨hturn.wellFormed, hturn.grows, hturn.outstanding_eq, fun k => ?_⟩
  rw [hturn.fileByte hfit, hlen]
  split
  next hk => rw [hbytes, source_getElem? src (by omega)]
  · rfl

/-- A turn of the loop of `write` that gets its block. -/
theorem writeLoop_turn {offset written remaining b : ℕ} {src : ℕ → UInt8} {limit : ℕ}
    (hzero : remaining ≠ 0) (hr : s.getBlock n (offset / blockSize) = .ok (some b, s'))
    (ho : 0 < s'.outstanding) :
    s.writeLoop n (source src limit) offset written remaining =
      let count := bytesThisBlock offset remaining
      let s'' := s'.copied b offset (source src limit written count).1
      if written + count ≤ limit then
        s''.writeLoop n (source src limit) (offset + count) (written + count) (remaining - count)
      else .ok (offset, written, s'') := by
  rw [State.writeLoop, if_neg hzero, hr]
  simp only [source_take]
  by_cases hle : written + bytesThisBlock offset remaining ≤ limit
  · have hall : (source src limit written (bytesThisBlock offset remaining)).2 = true :=
      decide_eq_true hle
    have hlog : (s'.copied b offset
        (source src limit written (bytesThisBlock offset remaining)).1).logWrite =
          .ok (s'.copied b offset
            (source src limit written (bytesThisBlock offset remaining)).1) :=
      logWrite_eq_ok.mpr ⟨ho, rfl⟩
    rw [if_pos hall, if_pos hle]
    simp only [State.copied] at hlog ⊢
    simp only [hlog]
  · have hall : (source src limit written (bytesThisBlock offset remaining)).2 = false :=
      decide_eq_false hle
    rw [hall, if_neg hle]
    rfl

end Zigmaos.InodeBlocks
