import Zigmaos.InodeBlocks

/-!
# No block below the size of a file is missing

The blocks that inodes refer to are told apart by the slot that names them. In a
well-formed state no two slots of allocated inodes name one block, so what is
written to a block of a file never changes the entries of an indirect block.
-/
namespace Zigmaos.InodeBlocks
open FileSystem (InodeType)

/-- Where an inode names a block. -/
inductive Slot
  | pointer (i : Fin 13)
  | entry (k : Fin indirectPointerCount)
  deriving DecidableEq

namespace State

/-- The block that a slot names, and zero where it names none. -/
def target (s : State) (n : ℕ) : Slot → ℕ
  | .pointer i => (s.inodes n).addrs i
  | .entry k =>
    if (s.inodes n).addrs indirectPointerBlockIndex = 0 then 0
    else s.entry ((s.inodes n).addrs indirectPointerBlockIndex) k

@[simp, grind =] theorem setInode_inodes (s : State) (n m : ℕ) (inode : DiskInode) :
    (s.setInode n inode).inodes m = if m = n then inode else s.inodes m := by
  simp [setInode, Function.update_apply]

@[simp, grind =] theorem setInode_blocks (s : State) (n : ℕ) (inode : DiskInode) :
    (s.setInode n inode).blocks = s.blocks := rfl

@[simp, grind =] theorem setInode_used (s : State) (n : ℕ) (inode : DiskInode) :
    (s.setInode n inode).used = s.used := rfl

@[simp, grind =] theorem setInode_nmeta (s : State) (n : ℕ) (inode : DiskInode) :
    (s.setInode n inode).nmeta = s.nmeta := rfl

@[simp, grind =] theorem setInode_superSize (s : State) (n : ℕ) (inode : DiskInode) :
    (s.setInode n inode).superSize = s.superSize := rfl

@[simp, grind =] theorem setAddr_addrs (s : State) (n m : ℕ) (i j : Fin 13) (b : ℕ) :
    ((s.setAddr n i b).inodes m).addrs j =
      if m = n ∧ j = i then b else (s.inodes m).addrs j := by
  by_cases hm : m = n
  · simp [setAddr, hm, Function.update_apply]
  · simp [setAddr, hm]

@[simp, grind =] theorem setAddr_type (s : State) (n m : ℕ) (i : Fin 13) (b : ℕ) :
    ((s.setAddr n i b).inodes m).type = (s.inodes m).type := by
  by_cases hm : m = n <;> simp [setAddr, hm]

@[simp, grind =] theorem setAddr_size (s : State) (n m : ℕ) (i : Fin 13) (b : ℕ) :
    ((s.setAddr n i b).inodes m).size = (s.inodes m).size := by
  by_cases hm : m = n <;> simp [setAddr, hm]

@[simp, grind =] theorem setAddr_blocks (s : State) (n : ℕ) (i : Fin 13) (b : ℕ) :
    (s.setAddr n i b).blocks = s.blocks := rfl

@[simp, grind =] theorem setAddr_used (s : State) (n : ℕ) (i : Fin 13) (b : ℕ) :
    (s.setAddr n i b).used = s.used := rfl

@[simp, grind =] theorem setAddr_nmeta (s : State) (n : ℕ) (i : Fin 13) (b : ℕ) :
    (s.setAddr n i b).nmeta = s.nmeta := rfl

@[simp, grind =] theorem setAddr_superSize (s : State) (n : ℕ) (i : Fin 13) (b : ℕ) :
    (s.setAddr n i b).superSize = s.superSize := rfl

@[simp, grind =] theorem setBlock_blocks (s : State) (b c : ℕ) (data : Block) :
    (s.setBlock b data).blocks c = if c = b then data else s.blocks c := by
  simp [setBlock, Function.update_apply]

@[simp, grind =] theorem setUsed_used (s : State) (b c : ℕ) (u : Bool) :
    (s.setUsed b u).used c = if c = b then u else s.used c := by
  simp [setUsed, Function.update_apply]

theorem logWrite_eq_ok {s s' : State} : s.logWrite = .ok s' ↔ 0 < s.outstanding ∧ s' = s := by
  unfold logWrite
  split <;> simp <;> grind

/-- A slot depends on its inode and on its indirect block. -/
theorem target_congr {s s' : State} {n : ℕ} (haddrs : (s'.inodes n).addrs = (s.inodes n).addrs)
    (hblocks : (s.inodes n).addrs indirectPointerBlockIndex ≠ 0 →
      s'.blocks ((s.inodes n).addrs indirectPointerBlockIndex) =
        s.blocks ((s.inodes n).addrs indirectPointerBlockIndex)) (slot : Slot) :
    s'.target n slot = s.target n slot := by
  cases slot with
  | pointer i => simp only [target, haddrs]
  | entry k =>
    simp only [target, haddrs]
    split
    · rfl
    next h => rw [entry, entry, hblocks h]

/-- The slot of the block of that index. -/
def slotOf (index : ℕ) : Slot :=
  if h : index < directPointerCount then .pointer ⟨index, direct_lt h⟩
  else .entry ⟨(index - directPointerCount) % indirectPointerCount, Nat.mod_lt _ (by decide)⟩

theorem blockEntry_eq {s : State} {n index : ℕ}
    (h : index < directPointerCount + indirectPointerCount) :
    s.blockEntry n index = s.target n (slotOf index) := by
  unfold blockEntry slotOf
  split
  · rfl
  next hd =>
    have hk : index - directPointerCount < indirectPointerCount := by
      simp only [directPointerCount, indirectPointerCount] at *
      omega
    rw [if_pos hk]
    simp only [target, Nat.mod_eq_of_lt hk]

theorem index_lt_of_blockEntry {s : State} {n index : ℕ} (h : s.blockEntry n index ≠ 0) :
    index < directPointerCount + indirectPointerCount := by
  unfold blockEntry at h
  split at h
  · omega
  · split at h
    · omega
    · exact absurd rfl h

end State

open State

/-- No two slots of live inodes name one block, and the blocks they name are in
use and lie after those of the file system itself. -/
structure WellFormed (live : ℕ → Prop) (s : State) : Prop where
  nmeta_pos : 0 < s.nmeta
  superSize_lt : s.superSize < 2 ^ 32
  nmeta_used : ∀ b < s.nmeta, s.used b = true
  target_used : ∀ n slot, live n → s.target n slot ≠ 0 →
    s.nmeta ≤ s.target n slot ∧ s.used (s.target n slot) = true
  target_inj : ∀ n n' slot slot', live n → live n' → s.target n slot ≠ 0 →
    s.target n slot = s.target n' slot' → n = n' ∧ slot = slot'

/-- What calls other than `truncate` leave alone. -/
structure Grows (live : ℕ → Prop) (s s' : State) : Prop where
  type_eq : ∀ n, (s'.inodes n).type = (s.inodes n).type
  size_eq : ∀ n, (s'.inodes n).size = (s.inodes n).size
  target_eq : ∀ n slot, live n → s.target n slot ≠ 0 → s'.target n slot = s.target n slot

variable {live : ℕ → Prop} {s s' s'' : State} {n : ℕ}

theorem Grows.refl (s : State) : Grows live s s := ⟨fun _ => rfl, fun _ => rfl, fun _ _ _ _ => rfl⟩

theorem Grows.trans (h : Grows live s s') (h' : Grows live s' s'') : Grows live s s'' where
  type_eq n := (h'.type_eq n).trans (h.type_eq n)
  size_eq n := (h'.size_eq n).trans (h.size_eq n)
  target_eq n slot hn hne := by
    have heq := h.target_eq n slot hn hne
    exact (h'.target_eq n slot hn (heq ▸ hne)).trans heq

theorem Grows.blockEntry (h : Grows live s s') (hn : live n) {index : ℕ}
    (hne : s.blockEntry n index ≠ 0) : s'.blockEntry n index = s.blockEntry n index := by
  have hlt := index_lt_of_blockEntry hne
  rw [blockEntry_eq hlt] at *
  rw [blockEntry_eq hlt]
  exact h.target_eq n _ hn hne

/-! ## Allocation -/

theorem findFree_eq_some {start b : ℕ} (h : s.findFree start = some b) :
    s.used b = false ∧ b < s.superSize := by
  obtain ⟨i, hi, rfl⟩ := Option.map_eq_some_iff.mp h
  have hmem := List.mem_range.mp (List.mem_of_find?_eq_some hi)
  exact ⟨by simpa using List.find?_some hi, by omega⟩

theorem allocate_none (h : s.allocate = .ok (none, s')) : s' = s := by
  unfold allocate at h
  grind [logWrite_eq_ok]

theorem allocate_some {b : ℕ} (h : s.allocate = .ok (some b, s')) :
    s.used b = false ∧ b < s.superSize ∧ s' = (s.setUsed b true).setBlock b .zero := by
  unfold allocate at h
  split at h
  · simp at h
  next c hc =>
    obtain ⟨k, -, hk⟩ := List.exists_of_findSome?_eq_some hc
    obtain ⟨hused, hlt⟩ := findFree_eq_some hk
    split at h
    · cases h
    next s1 h1 =>
      obtain ⟨-, rfl⟩ := logWrite_eq_ok.mp h1
      split at h
      · cases h
      next s2 h2 =>
        obtain ⟨-, rfl⟩ := logWrite_eq_ok.mp h2
        simp only [Except.ok.injEq, Prod.mk.injEq, Option.some.injEq] at h
        obtain ⟨rfl, rfl⟩ := h
        exact ⟨hused, hlt, rfl⟩

/-- An allocated block is named by no slot, its entries are zero, and no slot
changes. -/
structure Fresh (live : ℕ → Prop) (s s' : State) (b : ℕ) : Prop where
  wellFormed : WellFormed live s'
  inodes_eq : s'.inodes = s.inodes
  target_eq : ∀ n slot, live n → s'.target n slot = s.target n slot
  ne : ∀ n slot, live n → s'.target n slot ≠ b
  pos : b ≠ 0
  meta_le : s'.nmeta ≤ b
  lt : b < 2 ^ 32
  used : s'.used b = true
  zero : s'.blocks b = .zero

theorem WellFormed.fresh (h : WellFormed live s) {b : ℕ} (hb : s.allocate = .ok (some b, s')) :
    Fresh live s s' b := by
  obtain ⟨hused, hlt, rfl⟩ := allocate_some hb
  have hmeta : s.nmeta ≤ b := by
    by_contra hlt
    exact absurd (h.nmeta_used b (by omega)) (by simp [hused])
  have hpos : b ≠ 0 := by have := h.nmeta_pos; omega
  have hne : ∀ n slot, live n → s.target n slot ≠ b := by
    rintro n slot hn rfl
    exact absurd (h.target_used n slot hn hpos).2 (by simp [hused])
  have htarget : ∀ n slot, live n →
      ((s.setUsed b true).setBlock b .zero).target n slot = s.target n slot := by
    intro n slot hn
    have haddrs : (((s.setUsed b true).setBlock b .zero).inodes n).addrs = (s.inodes n).addrs := rfl
    refine target_congr haddrs (fun _ => ?_) slot
    have hother : (s.inodes n).addrs indirectPointerBlockIndex ≠ b := hne n (.pointer _) hn
    rw [setBlock_blocks, if_neg hother]
    rfl
  have husedEq : ∀ c, ((s.setUsed b true).setBlock b .zero).used c =
      if c = b then true else s.used c := fun c => setUsed_used s b c true
  refine ⟨⟨h.nmeta_pos, h.superSize_lt, ?_, ?_, ?_⟩, rfl, htarget, ?_, hpos, hmeta,
    hlt.trans h.superSize_lt, ?_, ?_⟩
  · intro c hc
    have := h.nmeta_used c hc
    grind
  · intro n slot hn hnz
    rw [htarget n slot hn] at *
    obtain ⟨hle, hu⟩ := h.target_used n slot hn hnz
    exact ⟨hle, by rw [husedEq, hu, ite_self]⟩
  · intro n n' slot slot' hn hn' hnz heq
    rw [htarget n slot hn] at *
    rw [htarget n' slot' hn'] at heq
    exact h.target_inj n n' slot slot' hn hn' hnz heq
  · intro n slot hn
    rw [htarget n slot hn]
    exact hne n slot hn
  · rw [husedEq, if_pos rfl]
  · rw [setBlock_blocks, if_pos rfl]

theorem Fresh.grows {b : ℕ} (h : Fresh live s s' b) : Grows live s s' where
  type_eq n := by rw [h.inodes_eq]
  size_eq n := by rw [h.inodes_eq]
  target_eq n slot hn _ := h.target_eq n slot hn

/-- A fresh block is entered into an empty slot, and no other slot changes. -/
theorem Fresh.fill {s₁ : State} {b : ℕ} (h : Fresh live s s₁ b) (s₂ : State) {slot : Slot}
    (hempty : s₁.target n slot = 0)
    (hnmeta : s₂.nmeta = s₁.nmeta) (hsize : s₂.superSize = s₁.superSize) (hused : s₂.used = s₁.used)
    (htype : ∀ m, (s₂.inodes m).type = (s₁.inodes m).type)
    (hsizes : ∀ m, (s₂.inodes m).size = (s₁.inodes m).size)
    (htarget : ∀ m slot', live m →
      s₂.target m slot' = if m = n ∧ slot' = slot then b else s₁.target m slot') :
    WellFormed live s₂ ∧ Grows live s s₂ := by
  have hw := h.wellFormed
  refine ⟨⟨by rw [hnmeta]; exact hw.nmeta_pos, by rw [hsize]; exact hw.superSize_lt,
    by rw [hnmeta, hused]; exact hw.nmeta_used, ?_, ?_⟩, h.grows.trans ⟨htype, hsizes, ?_⟩⟩
  · intro m slot' hm hne
    rw [htarget m slot' hm] at *
    rw [hnmeta, hused]
    split
    · exact ⟨h.meta_le, h.used⟩
    next hother => exact hw.target_used m slot' hm (by rwa [if_neg hother] at hne)
  · intro m m' slot₁ slot₂ hm hm' hne heq
    have h₁ := h.ne m slot₁ hm
    have h₂ := h.ne m' slot₂ hm'
    have hinj := hw.target_inj m m' slot₁ slot₂ hm hm'
    rw [htarget m slot₁ hm] at *
    rw [htarget m' slot₂ hm'] at heq
    grind
  · intro m slot' hm hne
    rw [htarget m slot' hm, if_neg]
    rintro ⟨rfl, rfl⟩
    exact hne hempty

/-- What `getBlock` and its parts do. -/
def Got (live : ℕ → Prop) (n : ℕ) (slot : Slot) (s : State) (r : Option ℕ × State) : Prop :=
  WellFormed live r.2 ∧ Grows live s r.2 ∧
    ∀ b, r.1 = some b → r.2.target n slot = b ∧ b ≠ 0

theorem pointerBlock_got (h : WellFormed live s) (hn : live n) {i : Fin 13}
    {r : Option ℕ × State} (hr : s.pointerBlock n i = .ok r) : Got live n (.pointer i) s r := by
  unfold pointerBlock at hr
  split at hr
  next b hb =>
    obtain rfl : (some b, s) = r := by simpa using hr
    unfold getDiskBlockDirect at hb
    split at hb
    · cases hb
    next hne =>
      refine ⟨h, .refl s, fun c hc => ?_⟩
      obtain rfl : b = c := by simpa using hc
      obtain rfl : (s.inodes n).addrs i = b := by simpa using hb
      exact ⟨rfl, hne⟩
  next hnone =>
    have hempty : (s.inodes n).addrs i = 0 := by
      by_contra hne
      simp [getDiskBlockDirect, hne] at hnone
    split at hr
    · cases hr
    next s₁ hs₁ =>
      obtain rfl : (none, s₁) = r := by simpa using hr
      obtain rfl := allocate_none hs₁
      exact ⟨h, .refl _, by simp⟩
    next b s₁ hs₁ =>
      obtain rfl : (some b, s₁.setAddr n i b) = r := by simpa using hr
      have hf := h.fresh hs₁
      have htarget : ∀ m slot', live m → (s₁.setAddr n i b).target m slot' =
          if m = n ∧ slot' = .pointer i then b else s₁.target m slot' := by
        intro m slot' hm
        cases slot' with
        | pointer j => simp [target]
        | entry k =>
          rw [if_neg (by simp)]
          by_cases hi : m = n ∧ indirectPointerBlockIndex = i
          · -- The indirect block is new, and all its entries are zero.
            obtain ⟨rfl, rfl⟩ := hi
            have hold : (s₁.inodes m).addrs indirectPointerBlockIndex = 0 := by
              rw [hf.inodes_eq]; exact hempty
            simp only [target, setAddr_addrs, and_self, if_true, hold]
            rw [if_neg hf.pos, entry, setAddr_blocks, hf.zero, Block.readField_zero]
          · simp only [target, setAddr_addrs, if_neg hi, entry, setAddr_blocks]
      have hfill := hf.fill (s₁.setAddr n i b) (show s₁.target n (.pointer i) = 0 by
        rw [target, hf.inodes_eq]; exact hempty) rfl rfl rfl (fun m => setAddr_type ..)
        (fun m => setAddr_size ..) htarget
      refine ⟨hfill.1, hfill.2, fun c hc => ?_⟩
      obtain rfl : b = c := by simpa using hc
      exact ⟨by rw [htarget n _ hn, if_pos ⟨rfl, rfl⟩], hf.pos⟩

theorem entryBlock_got (h : WellFormed live s) (hn : live n) {k : ℕ} (hk : k < indirectPointerCount)
    (hpos : (s.inodes n).addrs indirectPointerBlockIndex ≠ 0) {r : Option ℕ × State}
    (hr : s.entryBlock ((s.inodes n).addrs indirectPointerBlockIndex) k = .ok r) :
    Got live n (.entry ⟨k, hk⟩) s r := by
  have htarget_entry : s.target n (.entry ⟨k, hk⟩) =
      s.entry ((s.inodes n).addrs indirectPointerBlockIndex) k := by rw [target, if_neg hpos]
  unfold entryBlock at hr
  split at hr
  next hne =>
    obtain rfl := Except.ok.inj hr
    refine ⟨h, .refl s, fun c hc => ?_⟩
    obtain rfl := Option.some.inj hc
    exact ⟨htarget_entry, hne⟩
  next hzero =>
    split at hr
    · cases hr
    next s₁ hs₁ =>
      obtain rfl := Except.ok.inj hr
      obtain rfl := allocate_none hs₁
      exact ⟨h, .refl _, by simp⟩
    next b s₁ hs₁ =>
      have hf := h.fresh hs₁
      split at hr
      · cases hr
      next s₂ hs₂ =>
        obtain rfl := Except.ok.inj hr
        obtain ⟨-, hs₂⟩ := logWrite_eq_ok.mp hs₂
        generalize hib : (s.inodes n).addrs indirectPointerBlockIndex = ib at *
        have hib₁ : (s₁.inodes n).addrs indirectPointerBlockIndex = ib := by rw [hf.inodes_eq, hib]
        have hempty : s₁.target n (.entry ⟨k, hk⟩) = 0 := by
          rw [hf.target_eq n _ hn, htarget_entry]
          simpa using hzero
        have hinodes : s₂.inodes = s₁.inodes := by rw [hs₂]; rfl
        have htarget : ∀ m slot', live m → s₂.target m slot' =
            if m = n ∧ slot' = .entry ⟨k, hk⟩ then b else s₁.target m slot' := by
          intro m slot' hm
          by_cases hmn : m = n
          · subst hmn
            cases slot' with
            | pointer j => simp [target, hinodes]
            | entry j =>
              have hnew : s₂.target m (.entry j) =
                  ((s₁.blocks ib).writeField (4 * k) 4 b).readField (4 * j) 4 := by
                rw [target, hinodes, hib₁, if_neg hpos, entry, hs₂, setBlock_blocks, if_pos rfl]
              have hold : s₁.target m (.entry j) = (s₁.blocks ib).readField (4 * j) 4 := by
                rw [target, hib₁, if_neg hpos, entry]
              have hj := j.isLt
              by_cases hjk : j = ⟨k, hk⟩
              · -- What is stored of a block number is all of it.
                subst hjk
                rw [if_pos ⟨rfl, rfl⟩, hnew, Block.readField_writeField _ _ _ _ (by
                  simp only [indirectPointerCount, blockSize] at *; omega)]
                exact Nat.mod_eq_of_lt hf.lt
              · have hne : j.val ≠ k := fun heq => hjk (Fin.ext heq)
                rw [if_neg (by simp [hjk]), hnew, hold,
                  Block.readField_writeField_disjoint _ _ _ _ _ _ (by
                    simp only [indirectPointerCount, blockSize] at *; omega) (by omega)]
          · rw [if_neg (fun hboth => hmn hboth.1)]
            refine target_congr (by rw [hinodes]) (fun hne => ?_) slot'
            have hother : (s₁.inodes m).addrs indirectPointerBlockIndex ≠ ib := by
              intro heq
              exact hmn (hf.wellFormed.target_inj m n (.pointer _) (.pointer _) hm hn hne
                (heq.trans hib₁.symm)).1
            rw [hs₂, setBlock_blocks, if_neg hother]
        have hfill := hf.fill s₂ hempty (by rw [hs₂]; rfl) (by rw [hs₂]; rfl) (by rw [hs₂]; rfl)
          (fun m => by rw [hinodes]) (fun m => by rw [hinodes]) htarget
        refine ⟨hfill.1, hfill.2, fun c hc => ?_⟩
        obtain rfl := Option.some.inj hc
        exact ⟨by rw [htarget n _ hn, if_pos ⟨rfl, rfl⟩], hf.pos⟩

/-- `getBlock` returns the entry of its index, and no entry is lost. -/
theorem getBlock_spec (h : WellFormed live s) (hn : live n) {index : ℕ}
    {r : Option ℕ × State} (hr : s.getBlock n index = .ok r) :
    WellFormed live r.2 ∧ Grows live s r.2 ∧
      ∀ b, r.1 = some b → r.2.blockEntry n index = b ∧ b ≠ 0 := by
  unfold getBlock at hr
  split at hr
  next hd =>
    obtain ⟨hw, hg, hb⟩ := pointerBlock_got h hn hr
    refine ⟨hw, hg, fun b hb' => ?_⟩
    rw [blockEntry_eq (by omega), slotOf, dif_pos hd]
    exact hb b hb'
  next hd =>
    simp only at hr
    split at hr
    · cases hr
    next hk =>
      have hk' : index - directPointerCount < indirectPointerCount := Nat.not_le.mp hk
      split at hr
      · cases hr
      next s₁ hs₁ =>
        obtain rfl := Except.ok.inj hr
        obtain ⟨hw, hg, -⟩ := pointerBlock_got h hn hs₁
        exact ⟨hw, hg, by simp⟩
      next ib s₁ hs₁ =>
        obtain ⟨hw₁, hg₁, hib⟩ := pointerBlock_got h hn hs₁
        obtain ⟨hib, hne⟩ := hib ib rfl
        obtain rfl : (s₁.inodes n).addrs indirectPointerBlockIndex = ib := hib
        obtain ⟨hw, hg, hb⟩ := entryBlock_got hw₁ hn hk' hne hr
        refine ⟨hw, hg₁.trans hg, fun b hb' => ?_⟩
        rw [blockEntry_eq (by omega), slotOf, dif_neg hd]
        simp only [Nat.mod_eq_of_lt hk']
        exact hb b hb'

/-- Where a block is there, `getBlock` allocates nothing. -/
theorem getBlock_of_blockEntry {index : ℕ} (h : s.blockEntry n index ≠ 0) :
    s.getBlock n index = .ok (some (s.blockEntry n index), s) := by
  unfold blockEntry at *
  unfold getBlock
  split at h
  next hd => simp [hd, pointerBlock, getDiskBlockDirect, h]
  next hd =>
    split at h
    next hk =>
      split at h
      · exact absurd rfl h
      next hp =>
        simp [hd, Nat.not_le.mpr hk, hk, hp, pointerBlock, getDiskBlockDirect, entryBlock, h]
    · exact absurd rfl h

/-! ## Reading and writing -/

theorem WellFormed.congr (h : WellFormed live s) (hnmeta : s'.nmeta = s.nmeta)
    (hsize : s'.superSize = s.superSize) (hused : s'.used = s.used)
    (htarget : ∀ n slot, live n → s'.target n slot = s.target n slot) : WellFormed live s' where
  nmeta_pos := by rw [hnmeta]; exact h.nmeta_pos
  superSize_lt := by rw [hsize]; exact h.superSize_lt
  nmeta_used := by rw [hnmeta, hused]; exact h.nmeta_used
  target_used n slot hn hne := by
    rw [htarget n slot hn] at *
    rw [hnmeta, hused]
    exact h.target_used n slot hn hne
  target_inj n n' slot slot' hn hn' hne heq := by
    rw [htarget n slot hn] at *
    rw [htarget n' slot' hn'] at heq
    exact h.target_inj n n' slot slot' hn hn' hne heq

/-- A block of a file is not an indirect block. -/
theorem slotOf_ne_indirect (index : ℕ) : slotOf index ≠ .pointer indirectPointerBlockIndex := by
  unfold slotOf
  split
  next h =>
    intro heq
    have hval : index = 12 := congrArg Fin.val (Slot.pointer.inj heq)
    exact absurd h (by rw [hval]; decide)
  · simp

/-- Writing to a block of a file changes no slot. -/
theorem WellFormed.setBlock_target (h : WellFormed live s) (hn : live n) {index : ℕ}
    (hne : s.blockEntry n index ≠ 0) (data : Block) (m : ℕ) (slot : Slot) (hm : live m) :
    (s.setBlock (s.blockEntry n index) data).target m slot = s.target m slot := by
  have heq := blockEntry_eq (s := s) (n := n) (index_lt_of_blockEntry hne)
  have haddrs : ((s.setBlock (s.blockEntry n index) data).inodes m).addrs = (s.inodes m).addrs :=
    rfl
  refine target_congr haddrs (fun hp => ?_) slot
  have hother : (s.inodes m).addrs indirectPointerBlockIndex ≠ s.blockEntry n index := by
    intro hsame
    exact slotOf_ne_indirect index
      (h.target_inj m n (.pointer _) (slotOf index) hm hn hp (hsame.trans heq)).2.symm
  rw [setBlock_blocks, if_neg hother]

theorem WellFormed.setBlock (h : WellFormed live s) (hn : live n) {index : ℕ}
    (hne : s.blockEntry n index ≠ 0) (data : Block) :
    WellFormed live (s.setBlock (s.blockEntry n index) data) ∧
      Grows live s (s.setBlock (s.blockEntry n index) data) :=
  have htarget := h.setBlock_target hn hne data
  ⟨h.congr rfl rfl rfl htarget, fun _ => rfl, fun _ => rfl, fun m slot hm _ => htarget m slot hm⟩

/-- Every block that begins before the offset is there. -/
def Covered (s : State) (n offset : ℕ) : Prop :=
  ∀ i, i * blockSize < offset → s.blockEntry n i ≠ 0

theorem Covered.grows {offset : ℕ} (h : Covered s n offset) (hg : Grows live s s') (hn : live n) :
    Covered s' n offset := by
  intro i hi
  rw [hg.blockEntry hn (h i hi)]
  exact h i hi

/-- A turn of the loop ends before the block after the one it has got. -/
theorem Covered.turn {offset remaining : ℕ} (h : Covered s n offset)
    (hb : s.blockEntry n (offset / blockSize) ≠ 0) :
    Covered s n (offset + bytesThisBlock offset remaining) := by
  intro i hi
  by_cases hlt : i * blockSize < offset
  · exact h i hlt
  · have : i = offset / blockSize := by
      simp only [bytesThisBlock, blockSize] at *
      omega
    rwa [this]

theorem writeLoop_spec (h : WellFormed live s) (hn : live n) {copyIn : ℕ → ℕ → List UInt8 × Bool}
    {offset written remaining : ℕ} {r : ℕ × ℕ × State} (hcov : Covered s n offset)
    (hr : s.writeLoop n copyIn offset written remaining = .ok r) :
    WellFormed live r.2.2 ∧ Grows live s r.2.2 ∧ Covered r.2.2 n r.1 := by
  fun_induction State.writeLoop s n copyIn offset written remaining with
  | case1 s offset written =>
    obtain rfl := Except.ok.inj hr
    exact ⟨h, .refl s, hcov⟩
  | case2 => exact absurd hr nofun
  | case3 s offset written remaining _ s₁ hs₁ =>
    obtain rfl := Except.ok.inj hr
    obtain ⟨hw, hg, -⟩ := getBlock_spec h hn hs₁
    exact ⟨hw, hg, hcov.grows hg hn⟩
  | case4 => exact absurd hr nofun
  | case5 s offset written remaining _ b s₁ hs₁ count bytes s₂ _ s₃ hs₃ ih =>
    obtain ⟨hw, hg, hb⟩ := getBlock_spec h hn hs₁
    obtain ⟨hb, hne⟩ := hb b rfl
    obtain rfl : s₁.blockEntry n (offset / blockSize) = b := hb
    obtain ⟨hw₂, hg₂⟩ := hw.setBlock hn hne ((s₁.blocks (s₁.blockEntry n (offset / blockSize))).splice
      (offset % blockSize) bytes.length (fun i => (bytes[i]?).getD 0))
    obtain ⟨-, hs₃⟩ := logWrite_eq_ok.mp hs₃
    rw [hs₃] at ih hr
    have hcov₂ : Covered s₂ n (offset + count) :=
      ((hcov.grows hg hn).turn hne).grows hg₂ hn
    obtain ⟨hw', hg', hcov'⟩ := ih hw₂ hcov₂ hr
    exact ⟨hw', (hg.trans hg₂).trans hg', hcov'⟩
  | case6 s offset written remaining _ b s₁ hs₁ count bytes s₂ _ =>
    obtain rfl := Except.ok.inj hr
    obtain ⟨hw, hg, hb⟩ := getBlock_spec h hn hs₁
    obtain ⟨hb, hne⟩ := hb b rfl
    obtain rfl : s₁.blockEntry n (offset / blockSize) = b := hb
    obtain ⟨hw₂, hg₂⟩ := hw.setBlock hn hne ((s₁.blocks (s₁.blockEntry n (offset / blockSize))).splice
      (offset % blockSize) bytes.length (fun i => (bytes[i]?).getD 0))
    exact ⟨hw₂, hg.trans hg₂, (hcov.grows hg hn).grows hg₂ hn⟩

theorem Grows.allocated (h : Grows live s s') (m : ℕ) : s'.Allocated m ↔ s.Allocated m := by
  unfold Allocated
  rw [h.type_eq]

/-- Blocks that are there stay there, whatever `live` is besides. -/
theorem NoMissing.grows (h : NoMissing s) (hg : Grows s.Allocated s s') : NoMissing s' := by
  intro m hm i hi
  have hm' := (hg.allocated m).mp hm
  rw [hg.size_eq] at hi
  rw [hg.blockEntry hm' (h m hm' i hi)]
  exact h m hm' i hi

theorem WellFormed.mono {live' : ℕ → Prop} (h : WellFormed live s) (hle : ∀ n, live' n → live n) :
    WellFormed live' s where
  nmeta_pos := h.nmeta_pos
  superSize_lt := h.superSize_lt
  nmeta_used := h.nmeta_used
  target_used n slot hn := h.target_used n slot (hle n hn)
  target_inj n n' slot slot' hn hn' := h.target_inj n n' slot slot' (hle n hn) (hle n' hn')

@[simp] theorem setSize_target (s : State) (n size m : ℕ) (slot : Slot) :
    (s.setSize n size).target m slot = s.target m slot := by
  have haddrs : ((s.setSize n size).inodes m).addrs = (s.inodes m).addrs := by
    by_cases hm : m = n <;> simp [State.setSize, hm]
  exact target_congr haddrs (fun _ => rfl) slot

/-- The size grows to where the blocks are there. -/
theorem NoMissing.setSize (h : NoMissing s) {offset : ℕ} (hcov : Covered s n offset) :
    NoMissing (s.setSize n offset) := by
  have hentry : ∀ m i, (s.setSize n offset).blockEntry m i = s.blockEntry m i := by
    intro m i
    by_cases hi : i < directPointerCount + indirectPointerCount
    · rw [blockEntry_eq hi, blockEntry_eq hi, setSize_target]
    · simp only [State.blockEntry]
      rw [dif_neg (by omega), if_neg (by omega), dif_neg (by omega), if_neg (by omega)]
  intro m hm i hi
  rw [hentry]
  by_cases hmn : m = n
  · subst hmn
    exact hcov i (by simpa [State.setSize] using hi)
  · refine h m ?_ i ?_
    · simpa [Allocated, State.setSize, hmn] using hm
    · simpa [State.setSize, hmn] using hi

/-- What every operation keeps. -/
structure Invariant (s : State) : Prop where
  wellFormed : WellFormed s.Allocated s
  noMissing : NoMissing s

theorem Invariant.write (h : Invariant s) (hn : s.Allocated n)
    {copyIn : ℕ → ℕ → List UInt8 × Bool} {offset count : ℕ} {r : Except Error ℕ × State}
    (hr : s.write n copyIn offset count = .ok r) : Invariant r.2 := by
  unfold State.write at hr
  split at hr
  · obtain rfl := Except.ok.inj hr
    exact h
  next hle =>
    split at hr
    · obtain rfl := Except.ok.inj hr
      exact h
    split at hr
    · obtain rfl := Except.ok.inj hr
      exact h
    split at hr
    · exact absurd hr nofun
    next offset' written s₁ hs₁ =>
      have hcov : Covered s n offset := fun i hi => h.noMissing n hn i (by omega)
      obtain ⟨hw, hg, hcov'⟩ := writeLoop_spec h.wellFormed hn hcov hs₁
      have hnm := h.noMissing.grows hg
      have hlive : ∀ m, s₁.Allocated m → s.Allocated m := fun m => (hg.allocated m).mp
      split at hr
      · exact absurd hr nofun
      next s₂ hs₂ =>
        obtain rfl := Except.ok.inj hr
        obtain ⟨-, rfl⟩ := logWrite_eq_ok.mp hs₂
        split
        · have hsize : WellFormed s.Allocated (s₁.setSize n offset') :=
            hw.congr rfl rfl rfl (fun m slot _ => setSize_target s₁ n offset' m slot)
          refine ⟨hsize.mono (fun m hm => hlive m ?_), hnm.setSize hcov'⟩
          by_cases hmn : m = n <;> simpa [Allocated, State.setSize, hmn] using hm
        · exact ⟨hw.mono hlive, hnm⟩

/-- Below the size, the loop of `read` finds every block. -/
theorem readLoop_of_noMissing (h : NoMissing s) (hn : s.Allocated n) {copyOut : ℕ → Bool}
    {offset remaining : ℕ} {bytes : List UInt8} (hle : offset + remaining ≤ (s.inodes n).size) :
    ∃ r, s.readLoop n copyOut offset bytes remaining = .ok (r, s) := by
  induction remaining using Nat.strong_induction_on generalizing offset bytes with
  | _ remaining ih =>
    rw [State.readLoop]
    by_cases hzero : remaining = 0
    · exact ⟨_, if_pos hzero⟩
    · have hblock : s.blockEntry n (offset / blockSize) ≠ 0 := by
        refine h n hn _ ?_
        simp only [blockSize]
        omega
      rw [if_neg hzero, getBlock_of_blockEntry hblock]
      have hpos := bytesThisBlock_pos offset hzero
      have hcount : bytesThisBlock offset remaining ≤ remaining := Nat.min_le_left _ _
      simp only
      split
      · exact ih _ (by omega) (by omega)
      · exact ⟨_, rfl⟩

theorem read_of_noMissing (h : NoMissing s) (hn : s.Allocated n) (copyOut : ℕ → Bool)
    (offset count : ℕ) : ∃ r, s.read n copyOut offset count = .ok (r, s) := by
  unfold State.read
  split
  · exact ⟨_, rfl⟩
  · split
    · exact ⟨_, rfl⟩
    · refine readLoop_of_noMissing h hn ?_
      split <;> omega

/-! ## Truncation -/

theorem bind_eq_ok {α β : Type} {x : Except Panic α} {f : α → Except Panic β} {r : β} :
    (x >>= f) = .ok r ↔ ∃ a, x = .ok a ∧ f a = .ok r := by
  cases x with
  | error p => exact iff_of_false nofun (fun ⟨_, h, _⟩ => absurd h nofun)
  | ok a => exact ⟨fun h => ⟨a, rfl, h⟩, fun ⟨_, h, hf⟩ => by cases h; exact hf⟩

theorem free_eq_ok {b : ℕ} (h : s.free b = .ok s') : s' = s.setUsed b false := by
  unfold State.free at h
  split at h
  · exact absurd h nofun
  · exact (logWrite_eq_ok.mp h).2

/-- While the inode `n` is truncated from `s₀` on: it counts as live no more, and
no live inode names a block that it still names. -/
structure Truncating (live : ℕ → Prop) (n : ℕ) (s₀ s : State) : Prop where
  wellFormed : WellFormed live s
  separate : ∀ slot, s.target n slot ≠ 0 → s.nmeta ≤ s.target n slot ∧
    ∀ m slot', live m → s.target m slot' ≠ s.target n slot
  blocks_eq : s.blocks = s₀.blocks
  inodes_eq : ∀ m, m ≠ n → s.inodes m = s₀.inodes m
  type_eq : (s.inodes n).type = (s₀.inodes n).type

variable {s₀ : State}

theorem Truncating.target_eq (h : Truncating live n s₀ s) {m : ℕ} (hm : m ≠ n) (slot : Slot) :
    s.target m slot = s₀.target m slot :=
  target_congr (by rw [h.inodes_eq m hm]) (fun _ => by rw [h.blocks_eq]) slot

/-- Freeing a block that `n` names. -/
theorem Truncating.free (h : Truncating live n s₀ s) {slot : Slot} (hne : s.target n slot ≠ 0)
    (hf : s.free (s.target n slot) = .ok s') : Truncating live n s₀ s' := by
  obtain rfl := free_eq_ok hf
  obtain ⟨hmeta, hother⟩ := h.separate slot hne
  have hw := h.wellFormed
  refine ⟨⟨hw.nmeta_pos, hw.superSize_lt, ?_, ?_, hw.target_inj⟩, h.separate, h.blocks_eq,
    h.inodes_eq, h.type_eq⟩
  · intro b hb
    have hlt : b ≠ s.target n slot := by
      have : b < s.nmeta := hb
      omega
    rw [setUsed_used, if_neg hlt]
    exact hw.nmeta_used b hb
  · intro m slot' hm hnz
    obtain ⟨hle, hu⟩ := hw.target_used m slot' hm hnz
    refine ⟨hle, ?_⟩
    change (s.setUsed (s.target n slot) false).used (s.target m slot') = true
    rw [setUsed_used, if_neg (hother m slot' hm)]
    exact hu

/-- A slot of `n` is the same as before, or empty. -/
theorem target_setAddr_zero (s : State) (n : ℕ) (i : Fin 13) (slot : Slot) :
    (s.setAddr n i 0).target n slot = s.target n slot ∨ (s.setAddr n i 0).target n slot = 0 := by
  cases slot with
  | pointer j => grind [State.target]
  | entry k =>
    by_cases hi : indirectPointerBlockIndex = i
    · right
      simp [State.target, ← hi]
    · left
      simp only [State.target, setAddr_addrs, hi, and_false, if_false, entry, setAddr_blocks]

theorem Truncating.setAddr (h : Truncating live n s₀ s) (hn : ¬ live n) (i : Fin 13) :
    Truncating live n s₀ (s.setAddr n i 0) := by
  have hinodes : ∀ m, m ≠ n → (s.setAddr n i 0).inodes m = s.inodes m := by
    intro m hm
    rw [State.setAddr, setInode_inodes, if_neg hm]
  have hlive : ∀ m slot, live m → (s.setAddr n i 0).target m slot = s.target m slot := by
    rintro m slot hm
    have hmn : m ≠ n := fun heq => hn (heq ▸ hm)
    have haddrs : ((s.setAddr n i 0).inodes m).addrs = (s.inodes m).addrs := by rw [hinodes m hmn]
    exact target_congr haddrs (fun _ => rfl) slot
  refine ⟨h.wellFormed.congr rfl rfl rfl hlive, fun slot hne => ?_, h.blocks_eq,
    fun m hm => (hinodes m hm).trans (h.inodes_eq m hm), (setAddr_type ..).trans h.type_eq⟩
  obtain heq | heq := target_setAddr_zero s n i slot
  · rw [heq] at hne ⊢
    obtain ⟨hmeta, hother⟩ := h.separate slot hne
    refine ⟨hmeta, fun m slot' hm => ?_⟩
    rw [hlive m slot' hm]
    exact hother m slot' hm
  · exact absurd heq hne

theorem Truncating.freePointer (h : Truncating live n s₀ s) (hn : ¬ live n) {i : Fin 13}
    (hf : s.freePointer n i = .ok s') :
    Truncating live n s₀ s' ∧ (s'.inodes n).addrs i = 0 ∧
      ∀ j, (s.inodes n).addrs j = 0 → (s'.inodes n).addrs j = 0 := by
  unfold State.freePointer at hf
  split at hf
  next hnone =>
    obtain rfl := Except.ok.inj hf
    refine ⟨h, ?_, fun _ hj => hj⟩
    by_contra hne
    simp [getDiskBlockDirect, hne] at hnone
  next b hb =>
    have hne : (s.inodes n).addrs i ≠ 0 := by
      intro hzero
      simp [getDiskBlockDirect, hzero] at hb
    obtain rfl : (s.inodes n).addrs i = b := by simpa [getDiskBlockDirect, hne] using hb
    split at hf
    · cases hf
    next s₁ hs₁ =>
      obtain rfl := Except.ok.inj hf
      have hslot : s.target n (.pointer i) ≠ 0 := hne
      have h₁ : Truncating live n s₀ s₁ := h.free hslot hs₁
      obtain rfl := free_eq_ok hs₁
      refine ⟨h₁.setAddr hn i, by simp, fun j hj => ?_⟩
      rw [setAddr_addrs]
      split
      · rfl
      · exact hj

theorem Truncating.freePointers (h : Truncating live n s₀ s) (hn : ¬ live n) {l : List (Fin 13)}
    (hf : l.foldlM (fun s i => s.freePointer n i) s = .ok s') :
    Truncating live n s₀ s' ∧ (∀ i ∈ l, (s'.inodes n).addrs i = 0) ∧
      ∀ j, (s.inodes n).addrs j = 0 → (s'.inodes n).addrs j = 0 := by
  induction l generalizing s with
  | nil =>
    obtain rfl := Except.ok.inj hf
    exact ⟨h, fun i hi => absurd hi List.not_mem_nil, fun _ hj => hj⟩
  | cons i l ih =>
    rw [List.foldlM_cons, bind_eq_ok] at hf
    obtain ⟨s₁, hs₁, hf⟩ := hf
    obtain ⟨h₁, hzero, hkeep⟩ := h.freePointer hn hs₁
    obtain ⟨h', hzeros, hkeep'⟩ := ih h₁ hf
    refine ⟨h', fun j hj => ?_, fun j hj => hkeep' j (hkeep j hj)⟩
    obtain rfl | hj := List.mem_cons.mp hj
    · exact hkeep' j hzero
    · exact hzeros j hj

/-- Freeing the blocks of an indirect block changes no inode. -/
theorem Truncating.freeEntries (h : Truncating live n s₀ s) {l : List ℕ}
    (hl : ∀ k ∈ l, k < indirectPointerCount)
    (hp : (s.inodes n).addrs indirectPointerBlockIndex ≠ 0)
    (hf : l.foldlM (freeEntry ((s.inodes n).addrs indirectPointerBlockIndex)) s = .ok s') :
    Truncating live n s₀ s' ∧ s'.inodes = s.inodes := by
  induction l generalizing s with
  | nil =>
    obtain rfl := Except.ok.inj hf
    exact ⟨h, rfl⟩
  | cons k l ih =>
    rw [List.foldlM_cons, bind_eq_ok] at hf
    obtain ⟨s₁, hs₁, hf⟩ := hf
    have hk := hl k List.mem_cons_self
    have hl' := fun j hj => hl j (List.mem_cons_of_mem k hj)
    have hentry : s.target n (.entry ⟨k, hk⟩) =
        s.entry ((s.inodes n).addrs indirectPointerBlockIndex) k := by rw [State.target, if_neg hp]
    unfold freeEntry at hs₁
    split at hs₁
    next hne =>
      rw [← hentry] at hne hs₁
      have h₁ : Truncating live n s₀ s₁ := h.free hne hs₁
      have heq : s₁.inodes = s.inodes := by rw [free_eq_ok hs₁]; rfl
      rw [← heq] at hp hf
      obtain ⟨h', heq'⟩ := ih h₁ hl' hp hf
      exact ⟨h', heq'.trans heq⟩
    · obtain rfl := Except.ok.inj hs₁
      exact ih h hl' hp hf

theorem Truncating.freeIndirect (h : Truncating live n s₀ s) (hn : ¬ live n)
    (hf : s.freeIndirect n = .ok s') :
    Truncating live n s₀ s' ∧ (s'.inodes n).addrs indirectPointerBlockIndex = 0 ∧
      ∀ j, (s.inodes n).addrs j = 0 → (s'.inodes n).addrs j = 0 := by
  unfold State.freeIndirect at hf
  split at hf
  next hnone =>
    obtain rfl := Except.ok.inj hf
    refine ⟨h, ?_, fun _ hj => hj⟩
    by_contra hne
    simp [getDiskBlockDirect, hne] at hnone
  next b hb =>
    have hne : (s.inodes n).addrs indirectPointerBlockIndex ≠ 0 := by
      intro hzero
      simp [getDiskBlockDirect, hzero] at hb
    obtain rfl : (s.inodes n).addrs indirectPointerBlockIndex = b := by
      simpa [getDiskBlockDirect, hne] using hb
    obtain ⟨s₁, hs₁, hf⟩ := bind_eq_ok.mp hf
    obtain ⟨h₁, heq⟩ := h.freeEntries (fun k hk => List.mem_range.mp hk) hne hs₁
    obtain ⟨h', hzero, hkeep⟩ := h₁.freePointer hn hf
    exact ⟨h', hzero, fun j hj => hkeep j (by rw [heq]; exact hj)⟩

/-- What `truncate` leaves behind: nothing of the inode, and all of the others. -/
theorem truncate_spec (h : Truncating live n s₀ s) (hn : ¬ live n)
    (ht : s.truncate n = .ok s') :
    Truncating live n s₀ s' ∧ (s'.inodes n).size = 0 ∧ ∀ slot, s'.target n slot = 0 := by
  unfold State.truncate at ht
  obtain ⟨s₁, hs₁, ht⟩ := bind_eq_ok.mp ht
  obtain ⟨s₂, hs₂, ht⟩ := bind_eq_ok.mp ht
  obtain ⟨h₁, hzeros, -⟩ := h.freePointers hn hs₁
  obtain ⟨h₂, hzero, hkeep⟩ := h₁.freeIndirect hn hs₂
  obtain ⟨-, rfl⟩ := logWrite_eq_ok.mp ht
  have hall : ∀ i, (s₂.inodes n).addrs i = 0 := by
    intro i
    by_cases hi : i = indirectPointerBlockIndex
    · rw [hi, hzero]
    · refine hkeep i (hzeros i (List.mem_map.mpr ⟨⟨i.val, ?_⟩, List.mem_finRange _, rfl⟩))
      have := i.isLt
      have hne : i.val ≠ 12 := fun heq => hi (Fin.ext heq)
      simp only [directPointerCount]
      omega
  refine ⟨⟨h₂.wellFormed.congr rfl rfl rfl (fun m slot _ => setSize_target s₂ n 0 m slot),
    fun slot hne => ?_, h₂.blocks_eq, fun m hm => ?_, ?_⟩, ?_, fun slot => ?_⟩
  · rw [setSize_target] at *
    obtain ⟨hmeta, hother⟩ := h₂.separate slot hne
    exact ⟨hmeta, fun m slot' hm => by rw [setSize_target]; exact hother m slot' hm⟩
  · rw [← h₂.inodes_eq m hm]
    simp [State.setSize, hm]
  · rw [← h₂.type_eq]
    simp [State.setSize]
  · simp [State.setSize]
  · rw [setSize_target]
    cases slot with
    | pointer i => exact hall i
    | entry k => rw [State.target, if_pos (hall _)]

/-! ## Runs -/

/-- Inodes that name no block may be counted in. -/
theorem WellFormed.extend {live' : ℕ → Prop} (h : WellFormed live s)
    (hle : ∀ n, live' n → live n ∨ ∀ slot, s.target n slot = 0) : WellFormed live' s where
  nmeta_pos := h.nmeta_pos
  superSize_lt := h.superSize_lt
  nmeta_used := h.nmeta_used
  target_used n slot hn hne := by
    obtain hn | hz := hle n hn
    · exact h.target_used n slot hn hne
    · exact absurd (hz slot) hne
  target_inj n n' slot slot' hn hn' hne heq := by
    obtain hn | hz := hle n hn
    · obtain hn' | hz' := hle n' hn'
      · exact h.target_inj n n' slot slot' hn hn' hne heq
      · exact absurd (heq.trans (hz' slot')) hne
    · exact absurd (hz slot) hne

/-- A block entry depends on the slots of its inode. -/
theorem blockEntry_congr {m : ℕ} (h : ∀ slot, s'.target m slot = s.target m slot) (i : ℕ) :
    s'.blockEntry m i = s.blockEntry m i := by
  by_cases hi : i < directPointerCount + indirectPointerCount
  · rw [blockEntry_eq hi, blockEntry_eq hi, h]
  · unfold State.blockEntry
    rw [dif_neg (by omega), if_neg (by omega), dif_neg (by omega), if_neg (by omega)]

/-- An assignment to an inode that leaves its addresses and its size. -/
theorem Invariant.setInode (h : Invariant s) {inode : DiskInode}
    (hlive : inode.type ≠ .free → s.Allocated n) (haddrs : inode.addrs = (s.inodes n).addrs)
    (hsize : inode.size = (s.inodes n).size) : Invariant (s.setInode n inode) := by
  have htarget : ∀ m slot, (s.setInode n inode).target m slot = s.target m slot := by
    intro m slot
    have hm : ((s.setInode n inode).inodes m).addrs = (s.inodes m).addrs := by
      by_cases hmn : m = n <;> simp [hmn, haddrs]
    exact target_congr hm (fun _ => rfl) slot
  have halloc : ∀ m, (s.setInode n inode).Allocated m → s.Allocated m := by
    intro m hm
    by_cases hmn : m = n
    · subst hmn
      exact hlive (by simpa [Allocated] using hm)
    · simpa [Allocated, hmn] using hm
  have hw : WellFormed s.Allocated (s.setInode n inode) :=
    h.wellFormed.congr rfl rfl rfl (fun m slot _ => htarget m slot)
  refine ⟨hw.mono halloc, fun m hm i hi => ?_⟩
  rw [blockEntry_congr (htarget m)]
  refine h.noMissing m (halloc m hm) i ?_
  by_cases hmn : m = n <;> simpa [hmn, hsize] using hi

/-- `Inode.alloc` names no block. -/
theorem Invariant.alloc (h : Invariant s) {type : InodeType} :
    Invariant (s.setInode n (.ofType type)) := by
  have hother : ∀ m, m ≠ n → ∀ slot, (s.setInode n (.ofType type)).target m slot =
      s.target m slot := by
    intro m hm slot
    have haddrs : ((s.setInode n (.ofType type)).inodes m).addrs = (s.inodes m).addrs := by
      simp [hm]
    exact target_congr haddrs (fun _ => rfl) slot
  have hself : ∀ slot, (s.setInode n (.ofType type)).target n slot = 0 := by
    intro slot
    cases slot <;> simp [State.target, DiskInode.ofType]
  have hw : WellFormed (fun m => s.Allocated m ∧ m ≠ n) (s.setInode n (.ofType type)) :=
    (h.wellFormed.mono (fun m hm => hm.1)).congr rfl rfl rfl (fun m slot hm => hother m hm.2 slot)
  refine ⟨hw.extend (fun m hm => ?_), fun m hm i hi => ?_⟩
  · by_cases hmn : m = n
    · exact .inr (hmn ▸ hself)
    · exact .inl ⟨by simpa [Allocated, hmn] using hm, hmn⟩
  · by_cases hmn : m = n
    · subst hmn
      simp [DiskInode.ofType] at hi
    · rw [blockEntry_congr (hother m hmn)]
      exact h.noMissing m (by simpa [Allocated, hmn] using hm) i (by simpa [hmn] using hi)

/-- What holds before the first block is freed. -/
theorem WellFormed.truncating (h : WellFormed s.Allocated s) (hn : s.Allocated n) :
    Truncating (fun m => s.Allocated m ∧ m ≠ n) n s s := by
  refine ⟨h.mono (fun m hm => hm.1), fun slot hne => ⟨(h.target_used n slot hn hne).1, ?_⟩, rfl,
    fun _ _ => rfl, rfl⟩
  intro m slot' hm heq
  exact hm.2 (h.target_inj n m slot slot' hn hm.1 hne heq.symm).1.symm

theorem Invariant.truncate (h : Invariant s) (hn : s.Allocated n) (ht : s.truncate n = .ok s') :
    Invariant s' := by
  obtain ⟨h', hsize, hzero⟩ := truncate_spec (h.wellFormed.truncating hn) (fun hlive => hlive.2 rfl) ht
  have halloc : ∀ m, m ≠ n → s'.Allocated m → s.Allocated m := by
    intro m hmn hm
    unfold Allocated at *
    rwa [h'.inodes_eq m hmn] at hm
  refine ⟨h'.wellFormed.extend (fun m hm => ?_), fun m hm i hi => ?_⟩
  · by_cases hmn : m = n
    · exact .inr (hmn ▸ hzero)
    · exact .inl ⟨halloc m hmn hm, hmn⟩
  · by_cases hmn : m = n
    · rw [hmn, hsize] at hi
      exact absurd hi (Nat.not_lt_zero _)
    · rw [blockEntry_congr (h'.target_eq hmn)]
      rw [h'.inodes_eq m hmn] at hi
      exact h.noMissing m (halloc m hmn hm) i hi

theorem toOption_eq_some {α : Type} {x : Except Panic α} {a : α} (h : x.toOption = some a) :
    x = .ok a := by
  cases x with
  | error p => exact absurd h nofun
  | ok b => exact congrArg Except.ok (Option.some.inj h)

theorem Invariant.step (h : Invariant s) {e : Event} (hs : step s e = some s') : Invariant s' := by
  unfold InodeBlocks.step at hs
  cases e with
  | beginOperation =>
    obtain rfl := Option.some.inj hs
    exact ⟨h.wellFormed.congr rfl rfl rfl (fun _ _ _ => rfl), h.noMissing⟩
  | endOperation =>
    obtain ⟨-, hs⟩ := Option.ite_none_right_eq_some.mp hs
    obtain rfl := Option.some.inj hs
    exact ⟨h.wellFormed.congr rfl rfl rfl (fun _ _ _ => rfl), h.noMissing⟩
  | alloc n type =>
    obtain ⟨-, hs⟩ := Option.ite_none_right_eq_some.mp hs
    obtain ⟨-, rfl⟩ := logWrite_eq_ok.mp (toOption_eq_some hs)
    exact h.alloc
  | read n copyOut offset count =>
    obtain ⟨hn, hs⟩ := Option.ite_none_right_eq_some.mp hs
    obtain ⟨r, hr, rfl⟩ := Option.map_eq_some_iff.mp hs
    obtain ⟨r', hr'⟩ := read_of_noMissing h.noMissing hn copyOut offset count
    obtain rfl := Except.ok.inj ((toOption_eq_some hr).symm.trans hr')
    exact h
  | write n copyIn offset count =>
    obtain ⟨hn, hs⟩ := Option.ite_none_right_eq_some.mp hs
    obtain ⟨r, hr, rfl⟩ := Option.map_eq_some_iff.mp hs
    exact h.write hn (toOption_eq_some hr)
  | truncate n =>
    obtain ⟨hn, hs⟩ := Option.ite_none_right_eq_some.mp hs
    exact h.truncate hn (toOption_eq_some hs)
  | setLinkCount n linkCount =>
    obtain ⟨hn, hs⟩ := Option.ite_none_right_eq_some.mp hs
    obtain ⟨-, rfl⟩ := logWrite_eq_ok.mp (toOption_eq_some hs)
    exact h.setInode (fun _ => hn) rfl rfl
  | put n =>
    obtain ⟨hn, hs⟩ := Option.ite_none_right_eq_some.mp hs
    split at hs
    · cases hs
    next s₁ hs₁ =>
      obtain ⟨-, rfl⟩ := logWrite_eq_ok.mp (toOption_eq_some hs)
      exact (h.truncate hn hs₁).setInode (fun hfree => absurd rfl hfree) rfl rfl

def emptyImage : State where
  superSize := 2000
  nmeta := 100
  used := fun b => b < 100
  blocks := fun _ => .zero
  inodes := fun _ => .ofType .free
  outstanding := 0

def oneFile : State := { emptyImage with outstanding := 1 }.setInode 1 (.ofType .file)

end Zigmaos.InodeBlocks
