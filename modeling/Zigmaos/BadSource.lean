import Zigmaos.WriteRecords
import Zigmaos.InodeSpace
import Zigmaos.InodeSegments

/-!
# Writing from a source that is not all mapped

A copy that fails in the middle of a block has already changed the buffer of the
block, and the loop of `write` ends without `log.write` for it. This module says
exactly when that does no harm.
-/
namespace Zigmaos.InodeBlocks
open State

variable {live : ℕ → Prop} {n : ℕ} {c c' c'' : Cached} {src : ℕ → UInt8}

/-- What the turns of the loop have done that got their block and all their bytes. They
wrote the bytes from `offset` to `stop`, which are those of the source from `written` on. -/
structure Traced (live : ℕ → Prop) (n : ℕ) (src : ℕ → UInt8) (written offset stop : ℕ)
    (c c' : Cached) : Prop where
  wellFormed : WellFormed live c'.state
  grows : Grows live c.state c'.state
  outstanding_eq : c'.state.outstanding = c.state.outstanding
  mono : ∀ B, c.recorded B = true → c'.recorded B = true
  changed : ∀ B, B ≠ inodeBuffer n → Changed c.state c'.state B → c'.recorded B = true
  only : ∀ i, (∀ k, offset ≤ k → k < stop → k / blockSize ≠ i) →
    c.state.blockEntry n i ≠ 0 → c'.recorded (.data (c.state.blockEntry n i)) = true →
    c.recorded (.data (c.state.blockEntry n i)) = true
  entry_eq : ∀ i, (∀ k, offset ≤ k → k < stop → k / blockSize ≠ i) →
    c'.state.blockEntry n i = c.state.blockEntry n i
  fileByte_eq : ∀ k, c'.state.fileByte n k =
    if offset ≤ k ∧ k < stop then src (written + (k - offset)) else c.state.fileByte n k

theorem Traced.refl (h : WellFormed live c.state) (written offset : ℕ) :
    Traced live n src written offset offset c c where
  wellFormed := h
  grows := .refl _
  outstanding_eq := rfl
  mono _ h := h
  changed B _ h := absurd h (not_changed_refl _ B)
  only _ _ _ h := h
  entry_eq _ _ := rfl
  fileByte_eq k := by rw [if_neg (by omega)]

theorem Traced.trans {written offset middle stop : ℕ} (hle : offset ≤ middle) (hle' : middle ≤ stop)
    (hn : live n)
    (h : Traced live n src written offset middle c c')
    (h' : Traced live n src (written + (middle - offset)) middle stop c' c'') :
    Traced live n src written offset stop c c'' where
  wellFormed := h'.wellFormed
  grows := h.grows.trans h'.grows
  outstanding_eq := h'.outstanding_eq.trans h.outstanding_eq
  mono B hB := h'.mono B (h.mono B hB)
  changed B hB hchanged := by
    rcases hchanged.trans c'.state with hchanged | hchanged
    · exact h'.mono B (h.changed B hB hchanged)
    · exact h'.changed B hB hchanged
  only i hi hne hrec := by
    have heq := h.grows.blockEntry hn hne
    refine h.only i (fun k hk hk' => hi k hk (by omega)) hne ?_
    rw [← heq] at hrec hne ⊢
    exact h'.only i (fun k hk hk' => hi k (by omega) hk') hne hrec
  entry_eq i hi := by
    rw [h'.entry_eq i (fun k hk hk' => hi k (by omega) hk'),
      h.entry_eq i (fun k hk hk' => hi k hk (by omega))]
  fileByte_eq k := by
    rw [h'.fileByte_eq, h.fileByte_eq]
    by_cases hk : middle ≤ k ∧ k < stop
    · rw [if_pos hk, if_pos (by omega)]
      congr 1
      omega
    · rw [if_neg hk]
      by_cases hk' : offset ≤ k ∧ k < middle
      · rw [if_pos hk', if_pos (by omega)]
      · rw [if_neg hk', if_neg (by omega)]

/-- A turn that gets its block and all its bytes. -/
theorem traced_turn (hw : WellFormed live c.state) (hn : live n) (src : ℕ → UInt8)
    {offset written remaining limit b : ℕ}
    (hr : c.getBlock n (offset / blockSize) = .ok (some b, c'))
    (hle : written + bytesThisBlock offset remaining ≤ limit)
    (hpos : 0 < bytesThisBlock offset remaining) :
    Traced live n src written offset (offset + bytesThisBlock offset remaining) c
      ((c'.setState (c'.state.copied b offset
        (source src limit written (bytesThisBlock offset remaining)).1)).record (.data b)) := by
  have hstate := Cached.state_of_getBlock hr
  have hrec := getBlock_records hw hn hr
  obtain ⟨hwell, hgrows, hout, hbytes⟩ := getBlock_source hw hn src limit written
    remaining hstate rfl
  have hmin : min (bytesThisBlock offset remaining) (limit - written) =
      bytesThisBlock offset remaining := by omega
  rw [hmin] at hbytes
  have hturn := getBlock_turn hw hn hstate ((c'.state.blocks b).splice (offset % blockSize)
    (source src limit written (bytesThisBlock offset remaining)).1.length
    (fun i => ((source src limit written (bytesThisBlock offset remaining)).1[i]?).getD 0))
  have hother : ∀ i, (∀ k, offset ≤ k → k < offset + bytesThisBlock offset remaining →
      k / blockSize ≠ i) → i ≠ offset / blockSize := by
    intro i hi heq
    exact hi offset le_rfl (by omega) heq.symm
  refine ⟨hwell, hgrows, hout, ?_, ?_, ?_, fun i hi => hturn.entry_eq i (hother i hi), hbytes⟩
  · intro B hB
    rw [Cached.record_recorded, Cached.setState_recorded, hrec.mono B hB, ite_self]
  · intro B hB hchanged
    rw [Cached.record_recorded, Cached.setState_recorded]
    by_cases hBb : B = .data b
    · rw [if_pos hBb]
    · rw [if_neg hBb]
      refine hrec.changed B hB ?_
      cases B with
      | data x =>
        have hx : x ≠ b := fun heq => hBb (by rw [heq])
        change (c'.state.copied b offset _).blocks x ≠ _ at hchanged
        rwa [copied, setBlock_blocks, if_neg hx] at hchanged
      | freeMap k => exact hchanged
      | inodes k => exact hchanged
  · intro i hi hne hrecorded
    have hio := hother i hi
    have hlt := index_lt_of_blockEntry hne
    rw [Cached.record_recorded, Cached.setState_recorded] at hrecorded
    have hused : c.state.used (c.state.blockEntry n i) = true := by
      rw [State.blockEntry_eq hlt] at hne ⊢
      exact (hw.target_used n _ hn hne).2
    obtain ⟨hw', hg', hb⟩ := getBlock_spec hw hn hstate
    obtain ⟨hb, hbne⟩ := hb b rfl
    have hsame := hg'.blockEntry hn hne
    have hlt' := getBlock_index_lt hstate
    have hdiff : ∀ slot, slot ≠ slotOf i → c'.state.target n slot ≠ c.state.blockEntry n i := by
      intro slot hslot heq
      rw [← hsame, State.blockEntry_eq hlt] at heq hne
      exact hslot (hw'.target_inj n n _ _ hn hn (heq ▸ hne) heq).2
    have hnb : c.state.blockEntry n i ≠ b := by
      intro heq
      refine hdiff (slotOf (offset / blockSize)) (fun h => hio (slotOf_inj hlt hlt' h.symm)) ?_
      rw [← State.blockEntry_eq hlt']
      exact hb.trans heq.symm
    rw [if_neg (fun heq => hnb (Buffer.data.inj heq))] at hrecorded
    rcases hrec.only _ hrecorded with h | h | ⟨-, h⟩
    · exact h
    · rw [hused] at h
      cases h
    · exact absurd h.symm (hdiff (.pointer indirectPointerBlockIndex)
        (fun heq => slotOf_ne_indirect i heq.symm))

/-- How the loop ends: all bytes are written, there is no block, or a copy fails. -/
inductive LoopEnd (n : ℕ) (src : ℕ → UInt8) (limit stop : ℕ) (c₁ : Cached) :
    ℕ → ℕ → Cached → Prop
  | done (written : ℕ) : LoopEnd n src limit stop c₁ stop written c₁
  | noBlock (offset written : ℕ) (c' : Cached) (hlt : offset < stop)
      (hr : c₁.getBlock n (offset / blockSize) = .ok (none, c')) :
      LoopEnd n src limit stop c₁ offset written c'
  | failed (offset written b : ℕ) (c₂ : Cached) (hlt : offset < stop)
      (hr : c₁.getBlock n (offset / blockSize) = .ok (some b, c₂))
      (hfail : limit < written + bytesThisBlock offset (stop - offset)) :
      LoopEnd n src limit stop c₁ offset written (c₂.setState (c₂.state.copied b offset
        (source src limit written (bytesThisBlock offset (stop - offset))).1))

theorem writeLoop_end (hw : WellFormed live c.state) (hn : live n)
    {limit offset written remaining offset' written' : ℕ} (hle : written ≤ limit)
    (hr : c.writeLoop n (source src limit) offset written remaining =
      .ok (offset', written', c')) :
    ∃ c₁, offset ≤ offset' ∧ offset' ≤ offset + remaining ∧
      written' = written + (offset' - offset) ∧ written' ≤ limit ∧
      (offset' = offset ∨ offset' = offset + remaining ∨ offset' % blockSize = 0) ∧
      Traced live n src written offset offset' c c₁ ∧
      LoopEnd n src limit (offset + remaining) c₁ offset' written' c' := by
  induction remaining using Nat.strong_induction_on generalizing c offset written with
  | _ remaining ih =>
    rw [Cached.writeLoop] at hr
    by_cases hzero : remaining = 0
    · rw [if_pos hzero] at hr
      simp only [Except.ok.injEq, Prod.mk.injEq] at hr
      obtain ⟨rfl, rfl, rfl⟩ := hr
      subst hzero
      exact ⟨c, le_rfl, le_rfl, by omega, hle, .inl rfl, Traced.refl hw _ _, .done _⟩
    · rw [if_neg hzero] at hr
      have hpos := bytesThisBlock_pos offset hzero
      have hcount : bytesThisBlock offset remaining ≤ remaining := min_le_left _ _
      have hremaining : offset + remaining - offset = remaining := by omega
      cases hg : c.getBlock n (offset / blockSize) with
      | error p => simp [hg] at hr
      | ok r =>
        obtain ⟨_ | b, c₂⟩ := r
        · simp only [hg, Except.ok.injEq, Prod.mk.injEq] at hr
          obtain ⟨rfl, rfl, rfl⟩ := hr
          exact ⟨c, le_rfl, by omega, by omega, hle, .inl rfl, Traced.refl hw _ _,
            .noBlock _ _ _ (by omega) hg⟩
        · simp only [hg, source_take] at hr
          by_cases hall : written + bytesThisBlock offset remaining ≤ limit
          · have hmapped : (source src limit written (bytesThisBlock offset remaining)).2 = true :=
              decide_eq_true hall
            rw [if_pos hmapped] at hr
            split at hr
            · exact absurd hr nofun
            next c₃ hl =>
              obtain ⟨-, rfl⟩ := Cached.logWrite_eq_ok.mp hl
              have hturn := traced_turn hw hn src hg hall hpos
              obtain ⟨c₁, h₁, h₂, h₃, h₄, h₅, htraced, hend⟩ :=
                ih (remaining - bytesThisBlock offset remaining) (by omega) hturn.wellFormed hall hr
              have hsum : offset + bytesThisBlock offset remaining +
                  (remaining - bytesThisBlock offset remaining) = offset + remaining := by omega
              rw [hsum] at h₂ h₅ hend
              refine ⟨c₁, by omega, h₂, by omega, h₄, ?_, ?_, hend⟩
              · rcases h₅ with rfl | h₅ | h₅
                · simp only [bytesThisBlock, blockSize]
                  omega
                · exact .inr (.inl h₅)
                · exact .inr (.inr h₅)
              · refine hturn.trans (Nat.le_add_right _ _) h₁ hn ?_
                rwa [Nat.add_sub_cancel_left]
          · have hunmapped : (source src limit written (bytesThisBlock offset remaining)).2 = false :=
              decide_eq_false hall
            rw [hunmapped] at hr
            simp only [Bool.false_eq_true, if_false, Except.ok.injEq, Prod.mk.injEq] at hr
            obtain ⟨rfl, rfl, rfl⟩ := hr
            refine ⟨c, le_rfl, by omega, by omega, hle, .inl rfl, Traced.refl hw _ _, ?_⟩
            have hend : LoopEnd n src limit (offset + remaining) c offset written _ :=
              .failed offset written b c₂ (by omega) hg (by rw [hremaining]; omega)
            rwa [hremaining] at hend

/-- A block that `getBlock` allocates is recorded. -/
theorem allocate_recorded {b : ℕ} (h : c.allocate = .ok (some b, c')) :
    c'.recorded (.data b) = true := by
  rcases allocate_cached h with ⟨hb, -⟩ | ⟨x, hb, -, rfl⟩
  · exact absurd hb nofun
  · obtain rfl := Option.some.inj hb
    rw [Cached.record_recorded, if_pos rfl]

theorem pointerBlock_recorded {i : Fin 13} {b : ℕ} (h : c.pointerBlock n i = .ok (some b, c'))
    (hzero : (c.state.inodes n).addrs i = 0) : c'.recorded (.data b) = true := by
  unfold Cached.pointerBlock getDiskBlockDirect at h
  simp only [if_pos hzero] at h
  cases ha : c.allocate with
  | error p => simp [ha] at h
  | ok r =>
    obtain ⟨_ | x, c₁⟩ := r
    · simp [ha] at h
    · simp only [ha, Except.ok.injEq, Prod.mk.injEq, Option.some.injEq] at h
      obtain ⟨rfl, rfl⟩ := h
      rw [Cached.setState_recorded]
      exact allocate_recorded ha

theorem entryBlock_recorded {ib k b : ℕ} (h : c.entryBlock ib k = .ok (some b, c'))
    (hzero : c.state.entry ib k = 0) : c'.recorded (.data b) = true := by
  unfold Cached.entryBlock at h
  rw [if_neg (not_not.mpr hzero)] at h
  cases ha : c.allocate with
  | error p => simp [ha] at h
  | ok r =>
    obtain ⟨_ | x, c₁⟩ := r
    · simp [ha] at h
    · simp only [ha] at h
      split at h
      · cases h
      next c₂ hl =>
        simp only [Except.ok.injEq, Prod.mk.injEq, Option.some.injEq] at h
        obtain ⟨rfl, rfl⟩ := h
        obtain ⟨-, rfl⟩ := Cached.logWrite_eq_ok.mp hl
        rw [Cached.record_recorded, Cached.setState_recorded, allocate_recorded ha, ite_self]

theorem getBlock_recorded (hw : WellFormed live c.state) (hn : live n) {index b : ℕ}
    (h : c.getBlock n index = .ok (some b, c')) (hzero : c.state.blockEntry n index = 0) :
    c'.recorded (.data b) = true := by
  have hlt := getBlock_index_lt (Cached.state_of_getBlock h)
  unfold Cached.getBlock at h
  split at h
  next hd =>
    rw [blockEntry, dif_pos hd] at hzero
    exact pointerBlock_recorded h hzero
  next hd =>
    simp only at h
    split at h
    · exact absurd h nofun
    next hk =>
      split at h
      · exact absurd h nofun
      · exact absurd h nofun
      next ib c₁ hp =>
        have hp' : c.state.pointerBlock n indirectPointerBlockIndex = .ok (some ib, c₁.state) := by
          rw [← Cached.forget_pointerBlock, hp]
          rfl
        obtain ⟨-, -, hib⟩ := pointerBlock_got hw hn hp'
        obtain ⟨hib, hne⟩ := hib ib rfl
        obtain rfl : (c₁.state.inodes n).addrs indirectPointerBlockIndex = ib := hib
        have hentry := (pointerBlock_kept hw hn hp').blockEntry_indirect hn index
        rw [hzero, blockEntry, dif_neg hd, if_pos (Nat.not_le.mp hk), if_neg hne] at hentry
        exact entryBlock_recorded h hentry

/-- Where the block is there, nothing is recorded either. -/
theorem cached_getBlock_of_blockEntry {index : ℕ} (h : c.state.blockEntry n index ≠ 0) :
    c.getBlock n index = .ok (some (c.state.blockEntry n index), c) := by
  unfold blockEntry at *
  unfold Cached.getBlock
  split at h
  next hd => simp [hd, Cached.pointerBlock, getDiskBlockDirect, h]
  next hd =>
    split at h
    next hk =>
      split at h
      · exact absurd rfl h
      next hp =>
        simp [hd, Nat.not_le.mpr hk, hk, hp, Cached.pointerBlock, getDiskBlockDirect,
          Cached.entryBlock, h]
    · exact absurd rfl h

/-! ## The whole write -/

/-- What a write that returns `written` is to leave behind. -/
structure WriteExact (n offset written : ℕ) (src : ℕ → UInt8) (c c' : Cached) : Prop where
  fileByte_eq : ∀ k < (c'.state.inodes n).size, c'.state.fileByte n k =
    if offset ≤ k ∧ k < offset + written then src (k - offset) else c.state.fileByte n k
  size_eq : (c'.state.inodes n).size = max (c.state.inodes n).size (offset + written)
  recorded : ∀ B, Changed c.state c'.state B → c'.recorded B = true

/-- The source ends in no block that the file has, or what came in of that block changes
nothing, or only what lies behind the end of the file in a block that is recorded. -/
def Harmless (n offset limit count : ℕ) (src : ℕ → UInt8) (c : Cached) : Prop :=
  limit < count → c.state.blockEntry n ((offset + limit) / blockSize) ≠ 0 →
    (∀ k, max offset ((offset + limit) / blockSize * blockSize) ≤ k → k < offset + limit →
      src (k - offset) = c.state.fileByte n k) ∨
    c.recorded (.data (c.state.blockEntry n ((offset + limit) / blockSize))) = true ∧
      ∀ k, max offset ((offset + limit) / blockSize * blockSize) ≤ k → k < offset + limit →
        k < (c.state.inodes n).size → src (k - offset) = c.state.fileByte n k

/-- The end of `write`: the size, and the record of the inode. -/
def finishWrite (c : Cached) (n offset : ℕ) : Cached :=
  (c.setState (if (c.state.inodes n).size < offset then c.state.setSize n offset
    else c.state)).record (inodeBuffer n)

theorem finishWrite_fileByte (c : Cached) (n offset k : ℕ) :
    (finishWrite c n offset).state.fileByte n k = c.state.fileByte n k := by
  change (if _ then _ else _ : State).fileByte n k = _
  split
  · exact setSize_fileByte ..
  · rfl

theorem finishWrite_size (c : Cached) (n offset : ℕ) :
    ((finishWrite c n offset).state.inodes n).size = max (c.state.inodes n).size offset := by
  change ((if _ then _ else _ : State).inodes n).size = _
  split
  next h =>
    rw [setSize, setInode_inodes, if_pos rfl]
    exact (max_eq_right h.le).symm
  next h => exact (max_eq_left (Nat.not_lt.mp h)).symm

theorem finishWrite_blocks (c : Cached) (n offset : ℕ) :
    (finishWrite c n offset).state.blocks = c.state.blocks := by
  change (if _ then _ else _ : State).blocks = _
  split <;> rfl

theorem finishWrite_recorded (c : Cached) (n offset : ℕ) (B : Buffer) :
    (finishWrite c n offset).recorded B = if B = inodeBuffer n then true else c.recorded B :=
  Cached.record_recorded ..

theorem finishWrite_changed {s : State} {offset : ℕ} {B : Buffer} (hB : B ≠ inodeBuffer n)
    (h : Changed s (finishWrite c n offset).state B) : Changed s c.state B := by
  have hstate : (finishWrite c n offset).state = c.state.setSize n offset ∨
      (finishWrite c n offset).state = c.state := by
    change (if _ then _ else _ : State) = _ ∨ (if _ then _ else _ : State) = _
    split
    · exact .inl rfl
    · exact .inr rfl
  rcases hstate with hstate | hstate
  · rw [hstate] at h
    cases B with
    | data b => exact h
    | freeMap k => exact h
    | inodes k =>
      obtain ⟨m, rfl, hne⟩ := h
      have hm : m ≠ n := fun heq => hB (by rw [heq]; rfl)
      refine ⟨m, rfl, ?_⟩
      rwa [setSize, setInode_inodes, if_neg hm] at hne
  · rwa [hstate] at h

/-- What `write` has done when it returns a number. -/
theorem write_end (hw : WellFormed live c.state) (hn : live n) {limit offset count written : ℕ}
    (hr : c.write n (source src limit) offset count = .ok (.ok written, c')) :
    ∃ c₁ c₂, offset ≤ (c.state.inodes n).size ∧ written ≤ count ∧ written ≤ limit ∧
      (written = 0 ∨ written = count ∨ (offset + written) % blockSize = 0) ∧
      Traced live n src 0 offset (offset + written) c c₁ ∧
      LoopEnd n src limit (offset + count) c₁ (offset + written) written c₂ ∧
      c' = finishWrite c₂ n (offset + written) := by
  unfold Cached.write at hr
  split at hr
  · cases hr
  next hsize =>
    split at hr
    · cases hr
    · split at hr
      · cases hr
      · cases hl : c.writeLoop n (source src limit) offset 0 count with
        | error p => simp [hl] at hr
        | ok r =>
          obtain ⟨offset', written', c₂⟩ := r
          simp only [hl] at hr
          split at hr
          · cases hr
          next c₃ hlog =>
            simp only [Except.ok.injEq, Prod.mk.injEq] at hr
            obtain ⟨rfl, rfl⟩ := hr
            obtain ⟨-, rfl⟩ := Cached.logWrite_eq_ok.mp hlog
            obtain ⟨c₁, h₁, h₂, h₃, h₄, h₅, htraced, hend⟩ :=
              writeLoop_end hw hn (Nat.zero_le _) hl
            obtain rfl : offset' = offset + written' := by omega
            exact ⟨c₁, c₂, Nat.not_lt.mp hsize, by omega, h₄, by omega, htraced, hend, rfl⟩

/-- All that a write has changed before a copy fails is recorded, and its bytes are right. -/
theorem Traced.writeExact {offset written : ℕ}
    (h : Traced live n src 0 offset (offset + written) c c')
    (hbytes : ∀ k, c''.state.fileByte n k = c'.state.fileByte n k)
    (hsize : (c''.state.inodes n).size = (c'.state.inodes n).size)
    (hrecorded : ∀ B, B ≠ inodeBuffer n → Changed c.state c''.state B → c''.recorded B = true) :
    WriteExact n offset written src c (finishWrite c'' n (offset + written)) where
  fileByte_eq k _ := by
    rw [finishWrite_fileByte, hbytes, h.fileByte_eq, Nat.zero_add]
  size_eq := by rw [finishWrite_size, hsize, h.grows.size_eq]
  recorded B hB := by
    rw [finishWrite_recorded]
    split
    · rfl
    next hne => exact hrecorded B hne (finishWrite_changed hne hB)

theorem writeExact_of_noBlock {offset written : ℕ}
    (hn : live n) (h : Traced live n src 0 offset (offset + written) c c')
    (hr : c'.getBlock n ((offset + written) / blockSize) = .ok (none, c'')) :
    WriteExact n offset written src c (finishWrite c'' n (offset + written)) := by
  have hrefused := getBlock_refused h.wellFormed hn (Cached.state_of_getBlock hr)
  have hrec := getBlock_records h.wellFormed hn hr
  refine h.writeExact hrefused.fileByte_eq (hrefused.grows.size_eq n) (fun B hB hchanged => ?_)
  rcases hchanged.trans c'.state with hchanged | hchanged
  · exact hrec.mono B (h.changed B hB hchanged)
  · exact hrec.changed B hB hchanged

/-- Where a copy fails. -/
structure FailsAt (offset limit written remaining : ℕ) : Prop where
  written_le : written ≤ limit
  aligned : written = 0 ∨ (offset + written) % blockSize = 0
  lt : limit < written + bytesThisBlock (offset + written) remaining

theorem FailsAt.index_eq {offset limit written remaining : ℕ}
    (h : FailsAt offset limit written remaining) :
    (offset + written) / blockSize = (offset + limit) / blockSize := by
  have h₁ := h.written_le
  have h₂ := h.lt
  simp only [bytesThisBlock, blockSize] at *
  omega

theorem FailsAt.start_eq {offset limit written remaining : ℕ}
    (h : FailsAt offset limit written remaining) :
    max offset ((offset + limit) / blockSize * blockSize) = offset + written := by
  have hindex := h.index_eq
  have haligned := h.aligned
  rw [← hindex]
  simp only [blockSize] at *
  omega

/-- No byte that has been written is in the block whose copy fails. -/
theorem FailsAt.untouched {offset limit written remaining : ℕ}
    (h : FailsAt offset limit written remaining) (k : ℕ) (hk : offset ≤ k)
    (hlt : k < offset + written) : k / blockSize ≠ (offset + limit) / blockSize := by
  have hindex := h.index_eq
  have haligned := h.aligned
  rw [← hindex]
  simp only [blockSize] at *
  omega

/-- The state when the copy has failed: the bytes that came in are in the buffer. -/
def failedCopy (src : ℕ → UInt8) (limit offset written remaining b : ℕ) (c : Cached) : Cached :=
  c.setState (c.state.copied b (offset + written)
    (source src limit written (bytesThisBlock (offset + written) remaining)).1)

section
variable {offset limit written remaining b : ℕ} {c₁ c₂ : Cached}

theorem failed_fileByte (h : Traced live n src 0 offset (offset + written) c c₁) (hn : live n)
    (hf : FailsAt offset limit written remaining)
    (hr : c₁.getBlock n ((offset + written) / blockSize) = .ok (some b, c₂)) (k : ℕ) :
    (failedCopy src limit offset written remaining b c₂).state.fileByte n k =
      if offset ≤ k ∧ k < offset + limit then src (k - offset) else c.state.fileByte n k := by
  obtain ⟨-, -, -, hbytes⟩ := getBlock_source h.wellFormed hn src limit written remaining
    (Cached.state_of_getBlock hr) rfl
  have hle := hf.written_le
  have hlt := hf.lt
  have hmin : min (bytesThisBlock (offset + written) remaining) (limit - written) =
      limit - written := by omega
  change (c₂.state.copied b (offset + written) _).fileByte n k = _
  rw [hbytes, hmin, h.fileByte_eq]
  by_cases hk : offset + written ≤ k ∧ k < offset + written + (limit - written)
  · rw [if_pos hk, if_pos (by omega)]
    congr 1
    omega
  · rw [if_neg hk]
    by_cases hk' : offset ≤ k ∧ k < offset + written
    · rw [if_pos hk', if_pos (by omega), Nat.zero_add]
    · rw [if_neg hk', if_neg (by omega)]

theorem failed_size (limit remaining : ℕ)
    (h : Traced live n src 0 offset (offset + written) c c₁) (hn : live n)
    (hr : c₁.getBlock n ((offset + written) / blockSize) = .ok (some b, c₂)) :
    ((finishWrite (failedCopy src limit offset written remaining b c₂) n
      (offset + written)).state.inodes n).size =
        max (c.state.inodes n).size (offset + written) := by
  obtain ⟨-, hg, -⟩ := getBlock_spec h.wellFormed hn (Cached.state_of_getBlock hr)
  rw [finishWrite_size]
  change max (c₂.state.inodes n).size _ = _
  rw [hg.size_eq, h.grows.size_eq]

/-- Only the block of the copy can be changed without a record. -/
theorem failed_changed (h : Traced live n src 0 offset (offset + written) c c₁) (hn : live n)
    (hr : c₁.getBlock n ((offset + written) / blockSize) = .ok (some b, c₂)) {B : Buffer}
    (hB : B ≠ inodeBuffer n) (hBb : B ≠ .data b)
    (hchanged : Changed c.state (failedCopy src limit offset written remaining b c₂).state B) :
    c₂.recorded B = true := by
  have hrec := getBlock_records h.wellFormed hn hr
  have hchanged : Changed c.state c₂.state B := by
    cases B with
    | data x =>
      have hx : x ≠ b := fun heq => hBb (by rw [heq])
      change (c₂.state.copied b _ _).blocks x ≠ _ at hchanged
      rwa [copied, setBlock_blocks, if_neg hx] at hchanged
    | freeMap k => exact hchanged
    | inodes k => exact hchanged
  rcases hchanged.trans c₁.state with hchanged | hchanged
  · exact hrec.mono B (h.changed B hB hchanged)
  · exact hrec.changed B hB hchanged

/-- A copy into a new block harms nothing, for the block is recorded and lies behind the end
of the file. -/
theorem failed_fresh (h : Traced live n src 0 offset (offset + written) c c₁) (hn : live n)
    (hnone : ∀ i, i * blockSize < (c.state.inodes n).size → c.state.blockEntry n i ≠ 0)
    (hf : FailsAt offset limit written remaining)
    (hr : c₁.getBlock n ((offset + written) / blockSize) = .ok (some b, c₂))
    (hzero : c.state.blockEntry n ((offset + limit) / blockSize) = 0) :
    WriteExact n offset written src c
      (finishWrite (failedCopy src limit offset written remaining b c₂) n (offset + written)) := by
  have hindex := hf.index_eq
  have hzero₁ : c₁.state.blockEntry n ((offset + written) / blockSize) = 0 := by
    rw [hindex, h.entry_eq _ hf.untouched, hzero]
  refine ⟨fun k hk => ?_, failed_size limit remaining h hn hr, fun B hB => ?_⟩
  · rw [failed_size limit remaining h hn hr] at hk
    rw [finishWrite_fileByte, failed_fileByte h hn hf hr]
    have hbehind : (c.state.inodes n).size ≤ (offset + limit) / blockSize * blockSize :=
      Nat.not_lt.mp (fun hlt => hnone _ hlt hzero)
    have hle := hf.written_le
    by_cases hk' : offset ≤ k ∧ k < offset + written
    · rw [if_pos hk', if_pos (by omega)]
    · rw [if_neg hk', if_neg]
      simp only [blockSize] at *
      omega
  · rw [finishWrite_recorded]
    by_cases hBn : B = inodeBuffer n
    · rw [if_pos hBn]
    · rw [if_neg hBn]
      by_cases hBb : B = .data b
      · rw [hBb]
        have hrecorded := getBlock_recorded h.wellFormed hn hr hzero₁
        exact hrecorded
      · exact failed_changed h hn hr hBn hBb (finishWrite_changed hBn hB)

/-- A copy into a block that the file has. -/
theorem failed_present (h : Traced live n src 0 offset (offset + written) c c₁)
    (hf : FailsAt offset limit written remaining)
    (hr : c₁.getBlock n ((offset + written) / blockSize) = .ok (some b, c₂))
    (hne : c.state.blockEntry n ((offset + limit) / blockSize) ≠ 0) :
    b = c.state.blockEntry n ((offset + limit) / blockSize) ∧ c₂ = c₁ ∧
      (c₁.recorded (.data b) = true ↔ c.recorded (.data b) = true) := by
  have hsame : c₁.state.blockEntry n ((offset + written) / blockSize) =
      c.state.blockEntry n ((offset + limit) / blockSize) := by
    rw [hf.index_eq, h.entry_eq _ hf.untouched]
  rw [cached_getBlock_of_blockEntry (by rw [hsame]; exact hne)] at hr
  simp only [Except.ok.injEq, Prod.mk.injEq, Option.some.injEq] at hr
  obtain ⟨hb, rfl⟩ := hr
  rw [hsame] at hb
  subst hb
  exact ⟨rfl, rfl, h.only _ hf.untouched hne, h.mono _⟩

theorem fileByte_of_blockEntry {s : State} {k e : ℕ} (he : s.blockEntry n (k / blockSize) = e)
    (hne : e ≠ 0) : s.fileByte n k = (s.blocks e).byte (k % blockSize) := by
  subst he
  rw [State.fileByte, held, if_neg hne]

/-- The buffer stays as it was exactly if the bytes that came in are those that were there. -/
theorem failed_blocks_eq_iff (h : Traced live n src 0 offset (offset + written) c c₁) (hn : live n)
    (hf : FailsAt offset limit written remaining)
    (hr : c₁.getBlock n ((offset + written) / blockSize) = .ok (some b, c₁))
    (hb : b = c.state.blockEntry n ((offset + limit) / blockSize)) (hne : b ≠ 0) :
    (failedCopy src limit offset written remaining b c₁).state.blocks b = c.state.blocks b ↔
      ∀ k, offset + written ≤ k → k < offset + limit →
        src (k - offset) = c.state.fileByte n k := by
  have hindex := hf.index_eq
  have hle := hf.written_le
  have hbytes := failed_fileByte h hn hf hr
  have hentry : (failedCopy src limit offset written remaining b c₁).state.blockEntry n
      ((offset + limit) / blockSize) = b := by
    rw [← hindex]
    exact (getBlock_turn h.wellFormed hn (Cached.state_of_getBlock hr) _).entry
  constructor
  · intro heq k hk hlt
    have hkindex : k / blockSize = (offset + limit) / blockSize := by
      simp only [blockSize] at *
      omega
    have hold := fileByte_of_blockEntry (s := c.state) (k := k) (by rw [hkindex]; exact hb.symm) hne
    have hnew := fileByte_of_blockEntry (k := k) (by rw [hkindex]; exact hentry) hne
    rw [hbytes, if_pos (by omega), heq, ← hold] at hnew
    exact hnew
  · intro hsame
    refine Block.ext_byte (fun j hj => ?_)
    have hk : ((offset + limit) / blockSize * blockSize + j) / blockSize =
        (offset + limit) / blockSize := by
      simp only [blockSize] at *
      omega
    have hmod : ((offset + limit) / blockSize * blockSize + j) % blockSize = j := by
      simp only [blockSize] at *
      omega
    have hold := fileByte_of_blockEntry (s := c.state)
      (k := (offset + limit) / blockSize * blockSize + j) (by rw [hk]; exact hb.symm) hne
    have hnew := fileByte_of_blockEntry
      (k := (offset + limit) / blockSize * blockSize + j) (by rw [hk]; exact hentry) hne
    rw [hmod] at hold hnew
    rw [← hold, ← hnew, hbytes]
    by_cases hin : offset ≤ (offset + limit) / blockSize * blockSize + j ∧
        (offset + limit) / blockSize * blockSize + j < offset + limit
    · rw [if_pos hin]
      refine hsame _ ?_ hin.2
      by_contra hlt
      exact hf.untouched _ hin.1 (Nat.not_le.mp hlt) hk
    · rw [if_neg hin]

/-- A copy into a block that the file has does no harm exactly under the condition. -/
theorem failed_iff (h : Traced live n src 0 offset (offset + written) c c₁) (hn : live n)
    (hf : FailsAt offset limit written remaining)
    (hr : c₁.getBlock n ((offset + written) / blockSize) = .ok (some b, c₁))
    (hb : b = c.state.blockEntry n ((offset + limit) / blockSize)) (hne : b ≠ 0)
    (hrecorded : c₁.recorded (.data b) = true ↔ c.recorded (.data b) = true) :
    WriteExact n offset written src c
      (finishWrite (failedCopy src limit offset written remaining b c₁) n (offset + written)) ↔
    ((∀ k, offset + written ≤ k → k < offset + limit → src (k - offset) = c.state.fileByte n k) ∨
      c.recorded (.data b) = true ∧ ∀ k, offset + written ≤ k → k < offset + limit →
        k < (c.state.inodes n).size → src (k - offset) = c.state.fileByte n k) := by
  have hle := hf.written_le
  have hbytes := failed_fileByte h hn hf hr
  have hblocks := failed_blocks_eq_iff h hn hf hr hb hne
  have hsize := failed_size limit remaining h hn hr
  constructor
  · intro hexact
    by_cases hsame : ∀ k, offset + written ≤ k → k < offset + limit →
        src (k - offset) = c.state.fileByte n k
    · exact .inl hsame
    · right
      constructor
      · have hchanged : Changed c.state (finishWrite
            (failedCopy src limit offset written remaining b c₁) n (offset + written)).state
              (.data b) := by
          change _ ≠ _
          rw [finishWrite_blocks]
          exact fun heq => hsame (hblocks.mp heq)
        have hrec := hexact.recorded _ hchanged
        rw [finishWrite_recorded, if_neg (by simp [inodeBuffer])] at hrec
        exact hrecorded.mp hrec
      · intro k hk hlt hksize
        have hbyte := hexact.fileByte_eq k (by rw [hsize]; omega)
        rw [finishWrite_fileByte, hbytes, if_pos (by omega), if_neg (by omega)] at hbyte
        exact hbyte
  · intro hcond
    refine ⟨fun k hk => ?_, hsize, fun B hB => ?_⟩
    · rw [hsize] at hk
      rw [finishWrite_fileByte, hbytes]
      by_cases hk' : offset ≤ k ∧ k < offset + written
      · rw [if_pos hk', if_pos (by omega)]
      · rw [if_neg hk']
        by_cases hin : offset ≤ k ∧ k < offset + limit
        · rw [if_pos hin]
          rcases hcond with hsame | ⟨-, hsame⟩
          · exact hsame k (by omega) hin.2
          · exact hsame k (by omega) hin.2 (by omega)
        · rw [if_neg hin]
    · rw [finishWrite_recorded]
      by_cases hBn : B = inodeBuffer n
      · rw [if_pos hBn]
      · rw [if_neg hBn]
        have hB := finishWrite_changed hBn hB
        by_cases hBb : B = .data b
        · subst hBb
          change c₁.recorded (.data b) = true
          rcases hcond with hsame | ⟨hrec, -⟩
          · exact absurd (hblocks.mpr hsame) hB
          · exact hrecorded.mpr hrec
        · exact failed_changed h hn hr hBn hBb hB

end

/-- `write` is exact if and only if the copy that fails, if any, does no harm. -/
theorem writeExact_iff (hw : WellFormed live c.state) (hn : live n)
    (hnone : ∀ i, i * blockSize < (c.state.inodes n).size → c.state.blockEntry n i ≠ 0)
    (hsegment : Segment c.state n) {limit offset count written : ℕ}
    (hr : c.write n (source src limit) offset count = .ok (.ok written, c')) :
    WriteExact n offset written src c c' ↔ Harmless n offset limit count src c := by
  obtain ⟨c₁, c₂, hoffset, hcount, hlimit, haligned, htraced, hend, rfl⟩ := write_end hw hn hr
  generalize hstop : offset + count = stop at hend
  generalize hposition : offset + written = position at hend
  cases hend with
  | done =>
    -- All bytes came in.
    obtain rfl : written = count := by omega
    have hexact : WriteExact n offset written src c (finishWrite c₁ n (offset + written)) :=
      htraced.writeExact (fun _ => rfl) rfl htraced.changed
    rw [← hposition]
    exact ⟨fun _ hlt => absurd hlt (by omega), fun _ => hexact⟩
  | noBlock _ _ _ hlt hblock =>
    subst hposition
    have hexact := writeExact_of_noBlock hn htraced hblock
    have hrefused := getBlock_refused htraced.wellFormed hn (Cached.state_of_getBlock hblock)
    refine ⟨fun _ hlt' hne => ?_, fun _ => hexact⟩
    -- A block behind the missing one would not be there either.
    have hne' := hsegment ((offset + written) / blockSize) _
      (Nat.div_le_div_right (by omega)) hne
    have hsame := htraced.grows.blockEntry hn hne'
    rw [hrefused.entry_zero] at hsame
    exact absurd hsame.symm hne'
  | failed _ _ b c₂ hlt hblock hfail =>
    subst hposition hstop
    have hf : FailsAt offset limit written (offset + count - (offset + written)) :=
      ⟨hlimit, by omega, hfail⟩
    have hless : limit < count := by
      have : bytesThisBlock (offset + written) (offset + count - (offset + written)) ≤
        offset + count - (offset + written) := min_le_left _ _
      omega
    by_cases hzero : c.state.blockEntry n ((offset + limit) / blockSize) = 0
    · have hexact := failed_fresh htraced hn hnone hf hblock hzero
      exact ⟨fun _ _ hne => absurd hzero hne, fun _ => hexact⟩
    · obtain ⟨hb, hc₂, hrecorded⟩ := failed_present htraced hf hblock hzero
      subst hc₂
      have hiff := failed_iff htraced hn hf hblock hb (hb ▸ hzero) hrecorded
      rw [hb] at hiff hrecorded ⊢
      unfold Harmless
      rw [hf.start_eq]
      exact ⟨fun hexact _ _ => hiff.mp hexact, fun hharmless => hiff.mpr (hharmless hless hzero)⟩

/-- In any state that a run reaches from an image without gaps, and with any buffers
recorded, a write that returns a number is exact if and only if the copy that fails, if any,
does no harm. -/
theorem write_exact {s₀ : State} {es : List Event} {offset count limit written : ℕ}
    (hwell : WellFormed s₀.Allocated s₀) (hnone : NoMissing s₀) (hseg : Segments s₀)
    (hrun : Transition.run step s₀ es = some c.state) (hn : c.state.Allocated n)
    (hr : c.write n (source src limit) offset count = .ok (.ok written, c')) :
    WriteExact n offset written src c c' ↔ Harmless n offset limit count src c := by
  obtain ⟨h, hsegments⟩ := segments_run hwell hnone hseg hrun
  exact writeExact_iff h.wellFormed hn (h.noMissing n hn) (hsegments n hn) hr

/-! ## A file of one block -/

def oneBlock : State where
  superSize := 2000
  nmeta := 100
  used := fun b => b < 200
  blocks := fun _ => .zero
  inodes := fun n =>
    if n = 1 then ⟨.file, 1, 1024, fun i => if i = 0 then 150 else 0⟩ else .ofType .free
  outstanding := 1

theorem oneBlock_allocated {m : ℕ} (hm : oneBlock.Allocated m) : m = 1 := by
  by_contra hne
  simp [Allocated, oneBlock, hne, DiskInode.ofType] at hm

theorem oneBlock_target {slot : Slot} (h : oneBlock.target 1 slot ≠ 0) :
    slot = .pointer 0 ∧ oneBlock.target 1 slot = 150 := by
  cases slot with
  | pointer i =>
    by_cases hi : i = 0
    · subst hi
      exact ⟨rfl, rfl⟩
    · simp [target, oneBlock, hi] at h
  | entry k => exact absurd rfl h

theorem oneBlock_wellFormed : WellFormed oneBlock.Allocated oneBlock := by
  refine ⟨by decide, by decide, fun b hb => ?_, fun n slot hn hne => ?_,
    fun n n' slot slot' hn hn' hne heq => ?_⟩
  · have hb' : b < 100 := hb
    exact decide_eq_true (by omega)
  · obtain rfl := oneBlock_allocated hn
    rw [(oneBlock_target hne).2]
    exact ⟨by decide, rfl⟩
  · obtain rfl := oneBlock_allocated hn
    obtain rfl := oneBlock_allocated hn'
    have hslot := (oneBlock_target hne).1
    have hslot' := (oneBlock_target (heq ▸ hne)).1
    exact ⟨rfl, hslot.trans hslot'.symm⟩

theorem oneBlock_noMissing : NoMissing oneBlock := by
  intro n hn i hi
  obtain rfl := oneBlock_allocated hn
  have hi' : i * 1024 < 1024 := hi
  obtain rfl : i = 0 := by omega
  decide

theorem oneBlock_segments : Segments oneBlock := by
  intro n hn i j hij hj
  obtain rfl := oneBlock_allocated hn
  have hlt := index_lt_of_blockEntry hj
  rw [State.blockEntry_eq hlt] at hj
  obtain rfl : j = 0 := by
    have hslot := (oneBlock_target hj).1
    exact slotOf_inj hlt (by decide) hslot
  obtain rfl : i = 0 := by omega
  decide

def oneBlockCached : Cached := ⟨oneBlock, fun _ => false⟩

/-- A write of the whole block, of which the last half is not mapped, returns zero. -/
theorem oneBlock_write (src : ℕ → UInt8) :
    ∃ c', oneBlockCached.write 1 (source src 512) 0 1024 = .ok (.ok 0, c') := by
  have hentry : oneBlockCached.state.blockEntry 1 (0 / blockSize) ≠ 0 := by decide
  have hcount : bytesThisBlock 0 1024 = 1024 := by decide
  have hmapped : (source src 512 0 1024).2 = false := rfl
  have hloop : ∃ c₁, oneBlockCached.writeLoop 1 (source src 512) 0 0 1024 = .ok (0, 0, c₁) ∧
      c₁.state.outstanding = 1 := by
    rw [Cached.writeLoop, if_neg (by decide), cached_getBlock_of_blockEntry hentry]
    simp only [hcount, hmapped, Bool.false_eq_true, if_false]
    exact ⟨_, rfl, rfl⟩
  obtain ⟨c₁, hloop, ho⟩ := hloop
  unfold Cached.write
  rw [if_neg (by decide), if_neg (by decide), if_neg (by decide), hloop]
  have hsize : ¬ (c₁.state.inodes 1).size < 0 := Nat.not_lt_zero _
  have hlog : (c₁.setState c₁.state).logWrite (inodeBuffer 1) =
      .ok ((c₁.setState c₁.state).record (inodeBuffer 1)) :=
    Cached.logWrite_eq_ok.mpr ⟨by change 0 < c₁.state.outstanding; omega, rfl⟩
  refine ⟨(c₁.setState c₁.state).record (inodeBuffer 1), ?_⟩
  simp only [if_neg hsize, hlog]

/-- The bytes that come in are those that are there. -/
theorem write_exact_zeros : ∃ c',
    oneBlockCached.write 1 (source (fun _ => 0) 512) 0 1024 = .ok (.ok 0, c') ∧
      WriteExact 1 0 0 (fun _ => 0) oneBlockCached c' := by
  obtain ⟨c', hr⟩ := oneBlock_write (fun _ => 0)
  have hrun : Transition.run step oneBlock [] = some oneBlockCached.state := rfl
  refine ⟨c', hr, (write_exact oneBlock_wellFormed oneBlock_noMissing oneBlock_segments hrun
    (by decide) hr).mpr (fun _ _ => .inl (fun k _ _ => ?_))⟩
  have hbyte : oneBlock.fileByte 1 k = 0 := by
    unfold State.fileByte held
    split
    · exact Block.byte_zero _
    · exact Block.byte_zero _
  exact hbyte.symm

/-- The write returns zero and has changed the first byte of the file. -/
theorem write_returns_zero_changed : ∃ c',
    oneBlockCached.write 1 (source (fun _ => 1) 512) 0 1024 = .ok (.ok 0, c') ∧
      ¬ WriteExact 1 0 0 (fun _ => 1) oneBlockCached c' := by
  obtain ⟨c', hr⟩ := oneBlock_write (fun _ => 1)
  refine ⟨c', hr, fun hexact => ?_⟩
  have hiff := writeExact_iff oneBlock_wellFormed (show oneBlockCached.state.Allocated 1 by decide)
    (oneBlock_noMissing 1 (by decide)) (oneBlock_segments 1 (by decide)) hr
  obtain hsame | ⟨hrec, -⟩ := hiff.mp hexact (by decide) (by decide)
  · exact absurd (hsame 0 (by decide) (by decide)) (by decide)
  · exact absurd hrec nofun

end Zigmaos.InodeBlocks
